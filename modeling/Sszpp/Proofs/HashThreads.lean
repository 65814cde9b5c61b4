import Sszpp.Library.ForkJoin
import Sszpp.Model.HashThreads
import Sszpp.Proofs.Root

/-!
# Hash tree roots on several threads

Whatever the order in which the threads take their steps, `hash_tree_root` returns the reference root.
-/

namespace Sszpp

open Library

variable {α β : Type}

/-! ### The sequential model -/

/-- Where the sequential model returns, a thread that runs alone returns the same and does the same. -/
def Simulates (p : HashProgram α) (x : Hashing α) : Prop :=
  ∀ a events, x.run = .ok (a, events) →
    ∃ marks, p.run = .ok (a, marks) ∧ marks.filterMap Mark.event? = events

lemma simulates_onThread (x : Hashing α) : Simulates x.onThread x := by
  intro a events h
  refine ⟨events.map .event, ?_, ?_⟩
  · rw [Hashing.onThread, h, Program.run_serial]
  · rw [List.filterMap_map]
    exact List.filterMap_some

lemma simulates_pure (a : α) : Simulates (pure a : HashProgram α) (pure a) := by
  intro b events h
  cases h
  exact ⟨[], rfl, rfl⟩

lemma Simulates.bind {p : HashProgram α} {x : Hashing α} {f : α → HashProgram β} {g : α → Hashing β}
    (hp : Simulates p x) (hf : ∀ a, Simulates (f a) (g a)) : Simulates (p >>= f) (x >>= g) := by
  intro b events h
  obtain ⟨a, first, second, hx, hg, rfl⟩ := run_bind_eq_ok h
  obtain ⟨ms, hms, rfl⟩ := hp a first hx
  obtain ⟨ns, hns, rfl⟩ := hf a b second hg
  exact ⟨ms ++ ns, Program.run_bind hms hns, List.filterMap_append⟩

lemma Simulates.fork {p q : HashProgram Chunk} {x y : Hashing Chunk} {join : Chunk → Chunk → HashProgram Chunk}
    {g : Chunk × Chunk → Hashing Chunk} (hp : Simulates p x) (hq : Simulates q y)
    (hjoin : ∀ c d, Simulates (join c d) (g (c, d))) :
    Simulates (.fork p q join) ((do
      let left ← x
      let right ← y
      return (left, right)) >>= g) := by
  intro b events h
  obtain ⟨halves, first, rest, hhalves, hg, rfl⟩ := run_bind_eq_ok h
  obtain ⟨c, first, last, hx, hright, rfl⟩ := run_bind_eq_ok hhalves
  obtain ⟨d, second, third, hy, hpure, rfl⟩ := run_bind_eq_ok hright
  cases hpure
  obtain ⟨ms, hms, rfl⟩ := hp c first hx
  obtain ⟨ns, hns, rfl⟩ := hq d second hy
  obtain ⟨marks, hmarks, rfl⟩ := hjoin c d b rest hg
  refine ⟨_, Program.run_fork_eq_ok.mpr ⟨c, ms, d, ns, marks, hms, hns, hmarks, rfl⟩, ?_⟩
  have hempty : (∅ : List Event) = [] := rfl
  rw [filterMap_fork, hempty, List.append_nil]

/-- The order in which the halves of no vector change places. -/
def inOrder : Schedule := fun _ => false

section Vectors

variable (P : Platform)

lemma simulates_hashVector {threshold : Nat} {chunkSize : Nat → Nat} {p : List α → Nat → HashProgram Chunk}
    {x : List α → Nat → Hashing Chunk} (hserial : ∀ r limit, Simulates (p r limit) (x r limit)) (r : List α)
    (cpuCount limit : Nat) :
    Simulates (hashVectorThreads P threshold chunkSize p r cpuCount limit)
      (hashVector P threshold chunkSize x inOrder r cpuCount limit) := by
  induction hcpus : P.cpus cpuCount using Nat.strong_induction_on generalizing r cpuCount limit with
  | _ cpus ih =>
    rw [hashVectorThreads, hashVector, hcpus]
    split
    · exact hserial r limit
    · rename_i hparallel
      have hhalf := P.cpus_half_lt (n := cpus) (by omega)
      have hfirst := ih _ hhalf (r.take (bitCeil r.length / 2)) (cpus / 2) (chunkSize (bitCeil r.length / 2)) rfl
      have hlast := ih _ hhalf (r.drop (bitCeil r.length / 2)) (cpus / 2) (chunkSize (bitCeil r.length / 2)) rfl
      have horder : inOrder.lastFirst = false := rfl
      simp only [horder, Bool.false_eq_true, if_false]
      exact hfirst.fork hlast fun c d => simulates_onThread _

lemma simulates_basicVector (layout : BasicLayout α) (r : List α) (cpuCount limit : Nat) :
    Simulates (hashTreeRootBasicVectorThreads P layout r cpuCount limit)
      (hashTreeRootBasicVector P inOrder layout r cpuCount limit) :=
  simulates_hashVector P (fun _ _ => simulates_onThread _) r cpuCount limit

lemma simulates_bytes (bytes : Bytes) (cpuCount limit : Nat) :
    Simulates (hashTreeRootBytesThreads P bytes cpuCount limit)
      (hashTreeRootBytes P inOrder bytes cpuCount limit) :=
  simulates_basicVector P byteLayout bytes cpuCount limit

lemma simulates_elementRoots {p : α → HashProgram Chunk} {x : α → Hashing Chunk} (h : ∀ v, Simulates (p v) (x v))
    (r : List α) : Simulates (elementRootsThreads p r) (elementRoots x r) := by
  induction r with
  | nil => exact simulates_pure []
  | cons v vs ih => exact (h v).bind fun c => ih.bind fun cs => simulates_pure (c.1 ++ cs)

lemma simulates_range (layout : Option (BasicLayout α)) (rootBytes : Option (α → Bytes))
    {p : α → HashProgram Chunk} {x : α → Hashing Chunk} (h : ∀ v, Simulates (p v) (x v)) (r : List α)
    (cpuCount limit : Nat) :
    Simulates (hashTreeRootRangeThreads P layout rootBytes p r cpuCount limit)
      (hashTreeRootRange P inOrder layout rootBytes x r cpuCount limit) := by
  rcases layout with _ | layout
  · rcases rootBytes with _ | rootBytes
    · exact simulates_hashVector P
        (fun r limit => (simulates_elementRoots h r).bind fun chunks => simulates_bytes P chunks 1 limit)
        r cpuCount limit
    · exact simulates_hashVector P (fun _ _ => simulates_onThread _) r cpuCount limit
  · exact simulates_basicVector P layout r cpuCount limit

end Vectors

mutual

/-- The threads do what the sequential model does in order. -/
theorem SszType.simulates_hashTreeRoot (P : Platform) : {α : Type} → (τ : SszType α) → (v : α) → (cpuCount : Nat) →
    (result : Chunk) →
    Simulates (τ.hashTreeRootThreads P v cpuCount result) (τ.hashTreeRoot P inOrder v cpuCount result)
  | _, .basic b, v, _, result => simulates_pure (result.copy (b.toBytes v))
  | _, .array e _, v, cpuCount, _ =>
    simulates_range P e.basicLayout e.rootBytes (fun x => SszType.simulates_hashTreeRoot P e x 1 zeroHash)
      v.1 cpuCount 0
  | _, .vector e, v, cpuCount, _ =>
    simulates_range P e.basicLayout e.rootBytes (fun x => SszType.simulates_hashTreeRoot P e x 1 zeroHash)
      v cpuCount 0
  | _, .list e n, v, cpuCount, _ =>
    (simulates_range P e.basicLayout e.rootBytes (fun x => SszType.simulates_hashTreeRoot P e x 1 zeroHash) v
      cpuCount (listLimit e.basicLayout n)).bind fun _ => simulates_onThread _
  | _, .bitlist n, _, cpuCount, _ =>
    (simulates_onThread _).bind fun _ => (simulates_onThread _).bind fun bytes =>
      (simulates_bytes P bytes cpuCount (bitLimit n)).bind fun _ => simulates_onThread _
  | _, .bitset n, _, cpuCount, _ =>
    (simulates_onThread _).bind fun bytes => simulates_bytes P bytes cpuCount (bitLimit n)
  | _, .container _ ms, v, cpuCount, _ =>
    (Members.simulates_memberRoots P ms v cpuCount).bind fun ret => simulates_bytes P ret cpuCount 0

theorem Members.simulates_memberRoots (P : Platform) : {α : Type} → (ms : Members α) → (v : α) → (cpuCount : Nat) →
    Simulates (ms.memberRootsThreads P v cpuCount) (ms.memberRoots P inOrder v cpuCount)
  | _, .nil, _, _ => simulates_pure []
  | _, .cons m ms, (v, vs), cpuCount =>
    (SszType.simulates_hashTreeRoot P m v cpuCount zeroHash).bind fun c =>
      (Members.simulates_memberRoots P ms vs cpuCount).bind fun cs => simulates_pure (c.1 ++ cs)

end

/-! ### Enough threads -/

/-- The number of threads that a call may use. -/
def Platform.threads (P : Platform) (cpuCount : Nat) : Nat := max 1 (P.cpus cpuCount)

section Widths

variable (P : Platform)

lemma Platform.one_le_threads (cpuCount : Nat) : 1 ≤ P.threads cpuCount := Nat.le_max_left 1 _

lemma width_onThread (x : Hashing α) (cpuCount : Nat) : (x.onThread : HashProgram α).Width (P.threads cpuCount) :=
  (Program.width_serial x.run).mono (P.one_le_threads cpuCount)

lemma width_hashVector {threshold : Nat} {chunkSize : Nat → Nat} {p : List α → Nat → HashProgram Chunk}
    (hserial : ∀ r limit, (p r limit).Width 1) (r : List α) (cpuCount limit : Nat) :
    (hashVectorThreads P threshold chunkSize p r cpuCount limit).Width (P.threads cpuCount) := by
  induction hcpus : P.cpus cpuCount using Nat.strong_induction_on generalizing r cpuCount limit with
  | _ cpus ih =>
    rw [hashVectorThreads, hcpus]
    split
    · exact (hserial r limit).mono (P.one_le_threads cpuCount)
    · rename_i hparallel
      have hhalf := P.cpus_half_lt (n := cpus) (by omega)
      have hthreads : P.threads (cpus / 2) = cpus / 2 := by
        rw [Platform.threads, Platform.cpus, if_neg (by omega)]
        omega
      have hsum : cpus / 2 + cpus / 2 ≤ P.threads cpuCount := by
        rw [Platform.threads, hcpus]
        omega
      have hfirst := ih _ hhalf (r.take (bitCeil r.length / 2)) (cpus / 2) (chunkSize (bitCeil r.length / 2)) rfl
      have hlast := ih _ hhalf (r.drop (bitCeil r.length / 2)) (cpus / 2) (chunkSize (bitCeil r.length / 2)) rfl
      rw [hthreads] at hfirst hlast
      exact ⟨⟨_, _, hsum, hfirst, hlast⟩, fun c d => width_onThread P _ cpuCount⟩

lemma width_basicVector (layout : BasicLayout α) (r : List α) (cpuCount limit : Nat) :
    (hashTreeRootBasicVectorThreads P layout r cpuCount limit).Width (P.threads cpuCount) :=
  width_hashVector P (fun _ _ => Program.width_serial _) r cpuCount limit

lemma width_bytes (bytes : Bytes) (cpuCount limit : Nat) :
    (hashTreeRootBytesThreads P bytes cpuCount limit).Width (P.threads cpuCount) :=
  width_basicVector P byteLayout bytes cpuCount limit

lemma width_elementRoots {p : α → HashProgram Chunk} (h : ∀ v, (p v).Width 1) (r : List α) :
    (elementRootsThreads p r).Width 1 := by
  induction r with
  | nil => exact le_refl 1
  | cons v vs ih => exact (h v).bind fun _ => ih.bind fun _ => le_refl 1

lemma width_range (layout : Option (BasicLayout α)) (rootBytes : Option (α → Bytes)) {p : α → HashProgram Chunk}
    (h : ∀ v, (p v).Width 1) (r : List α) (cpuCount limit : Nat) :
    (hashTreeRootRangeThreads P layout rootBytes p r cpuCount limit).Width (P.threads cpuCount) := by
  rcases layout with _ | layout
  · rcases rootBytes with _ | rootBytes
    · exact width_hashVector P (fun r limit => (width_elementRoots h r).bind fun chunks =>
        width_bytes P chunks 1 limit) r cpuCount limit
    · exact width_hashVector P (fun _ _ => Program.width_serial _) r cpuCount limit
  · exact width_basicVector P layout r cpuCount limit

end Widths

mutual

/-- The elements of a range are hashed by the thread that hashes the range. -/
theorem SszType.width_hashTreeRoot (P : Platform) : {α : Type} → (τ : SszType α) → (v : α) → (cpuCount : Nat) →
    (result : Chunk) → (τ.hashTreeRootThreads P v cpuCount result).Width (P.threads cpuCount)
  | _, .basic _, _, cpuCount, _ => P.one_le_threads cpuCount
  | _, .array e _, v, cpuCount, _ =>
    width_range P e.basicLayout e.rootBytes (fun x => SszType.width_hashTreeRoot P e x 1 zeroHash) v.1 cpuCount 0
  | _, .vector e, v, cpuCount, _ =>
    width_range P e.basicLayout e.rootBytes (fun x => SszType.width_hashTreeRoot P e x 1 zeroHash) v cpuCount 0
  | _, .list e n, v, cpuCount, _ =>
    (width_range P e.basicLayout e.rootBytes (fun x => SszType.width_hashTreeRoot P e x 1 zeroHash) v cpuCount
      (listLimit e.basicLayout n)).bind fun _ => width_onThread P _ cpuCount
  | _, .bitlist n, _, cpuCount, _ =>
    (width_onThread P _ cpuCount).bind fun _ => (width_onThread P _ cpuCount).bind fun bytes =>
      (width_bytes P bytes cpuCount (bitLimit n)).bind fun _ => width_onThread P _ cpuCount
  | _, .bitset n, _, cpuCount, _ =>
    (width_onThread P _ cpuCount).bind fun bytes => width_bytes P bytes cpuCount (bitLimit n)
  | _, .container _ ms, v, cpuCount, _ =>
    (Members.width_memberRoots P ms v cpuCount).bind fun ret => width_bytes P ret cpuCount 0

theorem Members.width_memberRoots (P : Platform) : {α : Type} → (ms : Members α) → (v : α) → (cpuCount : Nat) →
    (ms.memberRootsThreads P v cpuCount).Width (P.threads cpuCount)
  | _, .nil, _, cpuCount => P.one_le_threads cpuCount
  | _, .cons m ms, (v, vs), cpuCount =>
    (SszType.width_hashTreeRoot P m v cpuCount zeroHash).bind fun _ =>
      (Members.width_memberRoots P ms vs cpuCount).bind fun _ => P.one_le_threads cpuCount

end

/-! ### Every order of the steps -/

section Runs

variable (P : Platform)

/-- A run of the threads of `hash_tree_root(result, v, cpu_count)` up to some point. A buffer
`two_blocks` holds zeros at first. -/
def HashRun (τ : SszType α) (v : α) (cpuCount : Nat) (trace : List (Action Event)) (heap : Heap Chunk)
    (task : Task Stop Event Chunk Chunk) : Prop :=
  Steps zeroHash (.empty zeroHash) (.running (τ.hashTreeRootThreads P v cpuCount zeroHash)) trace heap task

/-- Whatever thread takes the next step at any time: the threads end after the same number of steps, never
wait for each other in vain, stay inside their buffers, do what one thread does in another order, and leave the
reference root. -/
theorem hashTreeRoot_interleavings (τ : SszType α) (v : α) (hwithin : τ.WithinLimits v) (htrees : τ.TreesWithin v)
    (cpuCount : Nat) :
    ∃ steps serial, (τ.hashTreeRoot P inOrder v cpuCount zeroHash).run =
        .ok (τ.root P.hashtreeHash v, serial) ∧
      ∀ trace heap task, HashRun P τ v cpuCount trace heap task →
        (∀ e ∈ events trace, e.Within (· < 42)) ∧ trace.length ≤ steps ∧
        (trace.length < steps → ∃ a heap' task', Step zeroHash heap task a heap' task') ∧
        (trace.length = steps → task = .running (.ret (τ.root P.hashtreeHash v)) ∧ serial.Perm (events trace)) := by
  obtain ⟨c, hyields, hvalue⟩ :=
    SszType.exists_root (K := (· < 42)) P (fun _ hi => hi) τ v hwithin htrees.limitsFit (.inr htrees)
  obtain ⟨serial, hserial, hin, -⟩ := hyields inOrder cpuCount
  rw [hvalue htrees] at hserial
  obtain ⟨marks, hmarks, hevents⟩ := SszType.simulates_hashTreeRoot P τ v cpuCount zeroHash _ serial hserial
  refine ⟨marks.length, serial, hserial, fun trace heap task hrun => ?_⟩
  rcases hrun.returns hmarks with ⟨htask, hperm⟩ | ⟨⟨left, hleft, hperm⟩, hstep⟩
  · have hlen : marks.length = trace.length := by rw [hperm.length_eq, List.length_map]
    rw [← List.append_nil (trace.map Action.mark)] at hperm
    have hserialPerm := perm_events hperm
    rw [hevents, List.filterMap_nil, List.append_nil] at hserialPerm
    exact ⟨fun e he => hin e (hserialPerm.mem_iff.mpr he), le_of_eq hlen.symm, fun hlt => absurd hlt (by omega),
      fun _ => ⟨htask, hserialPerm⟩⟩
  · have hlen : marks.length = trace.length + left.length := by
      rw [hperm.length_eq, List.length_append, List.length_map]
    have hpos := List.length_pos_iff.mpr hleft
    have hserialPerm := perm_events hperm
    rw [hevents] at hserialPerm
    exact ⟨fun e he => hin e (hserialPerm.mem_iff.mpr (List.mem_append_left _ he)), by omega, fun _ => hstep,
      fun heq => absurd heq (by omega)⟩

theorem hashTreeRoot_interleavings_sample :
    ∃ steps serial, (sampleType.hashTreeRoot samplePlatform inOrder sampleValue 0 zeroHash).run =
        .ok (sampleType.root samplePlatform.hashtreeHash sampleValue, serial) ∧
      ∀ trace heap task, HashRun samplePlatform sampleType sampleValue 0 trace heap task →
        (∀ e ∈ events trace, e.Within (· < 42)) ∧ trace.length ≤ steps ∧
        (trace.length < steps → ∃ a heap' task', Step zeroHash heap task a heap' task') ∧
        (trace.length = steps →
          task = .running (.ret (sampleType.root samplePlatform.hashtreeHash sampleValue)) ∧
            serial.Perm (events trace)) := by
  apply hashTreeRoot_interleavings
  · simp [sampleType, sampleValue, SszType.WithinLimits, Members.WithinLimits]
  · simp [sampleType, sampleValue, SszType.TreesWithin, Members.TreesWithin, chunkLimit,
      SszType.basicLayout, BasicType.layout, BasicType.sizeof, Members.count]

/-- At no point of a run there are more threads than `cpu_count` allows, or than the hardware runs at once
where it is 0. -/
theorem hashTreeRoot_threads_le (τ : SszType α) (v : α) (cpuCount : Nat) {trace : List (Action Event)}
    {heap : Heap Chunk} {task : Task Stop Event Chunk Chunk} (hrun : HashRun P τ v cpuCount trace heap task) :
    task.threads ≤ max 1 (if cpuCount = 0 then P.hardwareConcurrency else cpuCount) :=
  Steps.threads_le (SszType.width_hashTreeRoot P τ v cpuCount zeroHash) hrun

/-- The first step over five roots on two threads. -/
lemma exists_hashRun_five : ∃ heap left right join,
    HashRun samplePlatform (.list (.array (.basic .byte) 32) 8) (List.replicate 5 zeroHash) 2 [.alloc 0] heap
      (.waiting 0 (.running left) (.running right) join) := by
  have hfork : ∃ left right join,
      (SszType.list (.array (.basic .byte) 32) 8).hashTreeRootThreads samplePlatform (List.replicate 5 zeroHash) 2
        zeroHash = .fork left right join := by
    unfold SszType.hashTreeRootThreads
    change ∃ left right join, (hashVectorThreads samplePlatform 4 _ _ _ 2 8 >>= fun _ => _) = _
    rw [hashVectorThreads, if_neg (by decide)]
    exact ⟨_, _, _, rfl⟩
  obtain ⟨left, right, join, hfork⟩ := hfork
  refine ⟨(Heap.empty zeroHash).alloc zeroHash, left, right, join, ?_⟩
  rw [HashRun, hfork]
  exact .snoc .refl (.fork (.empty zeroHash) left right join)

theorem hashTreeRoot_threads_le_sample :
    ∃ heap task, HashRun samplePlatform (.list (.array (.basic .byte) 32) 8) (List.replicate 5 zeroHash) 2
        [.alloc 0] heap task ∧ task.threads ≤ 2 := by
  obtain ⟨heap, left, right, join, hrun⟩ := exists_hashRun_five
  exact ⟨heap, _, hrun, hashTreeRoot_threads_le samplePlatform _ _ 2 hrun⟩

end Runs

end Sszpp
