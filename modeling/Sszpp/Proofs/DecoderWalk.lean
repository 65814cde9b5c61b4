import Sszpp.Proofs.FixedSize

/-!
# The walk of a decoder over its input

Which operations a decoder gets to depends on the bytes, on the type and, for members that are declared
of fixed size and are not, on the object decoded into. The walk says of every input whether all operations
reached are defined, those of the decoders of members and elements included, and whether the end is reached
without an exception.
-/

namespace Sszpp

open Library

variable {α β : Type}

/-- The function throws or returns. The model stops at whatever is not defined, at any depth of the calls. -/
def Outcome.Defined (x : Outcome α) : Prop := (∃ e, x = .error (.thrown e)) ∨ ∃ v, x = .ok v

/-- What the conditions on the way of a function come to. -/
structure Walk where
  /-- Every operation that is reached is defined. -/
  inside : Prop
  /-- The end is reached. -/
  passes : Prop

namespace Walk

def done : Walk := ⟨True, True⟩

/-- An operation that is defined only under a condition. -/
def needs (p : Prop) : Walk := ⟨p, p⟩

/-- A check that throws. -/
def throwsUnless (p : Prop) : Walk := ⟨True, p⟩

/-- A second walk that begins where the first ends. -/
def andThen (w w' : Walk) : Walk := ⟨w.inside ∧ (w.passes → w'.inside), w.passes ∧ w'.passes⟩

end Walk

/-- A function does what the walk says. -/
structure Outcome.Walks (x : Outcome α) (w : Walk) : Prop where
  defined_iff : x.Defined ↔ w.inside
  returns_iff : (∃ v, x = .ok v) ↔ w.passes

namespace Outcome

variable {x : Outcome α} {w w' : Walk}

lemma defined_ok (v : α) : Defined (.ok v : Outcome α) := .inr ⟨v, rfl⟩

lemma defined_thrown (e : Exception) : Defined (.error (.thrown e) : Outcome α) := .inl ⟨e, rfl⟩

lemma not_defined (u : Undefined) : ¬ Defined (.error (.undefined u) : Outcome α) := by
  rintro (⟨e, he⟩ | ⟨v, hv⟩)
  · cases he
  · cases hv

lemma walks_done (v : α) : Walks (.ok v : Outcome α) .done :=
  ⟨iff_of_true (defined_ok v) trivial, iff_of_true ⟨v, rfl⟩ trivial⟩

lemma Walks.nested (h : x.Walks w) : x.nested.Walks w := by
  rcases x with (e | u) | v
  · exact h
  · exact ⟨(iff_of_false (not_defined _) (not_defined u)).trans h.defined_iff,
      (iff_of_false nofun nofun).trans h.returns_iff⟩
  · exact h

lemma Walks.bind (h : x.Walks w) {f : α → Outcome β} (hf : ∀ v, x = .ok v → (f v).Walks w') :
    (x >>= f).Walks (w.andThen w') := by
  rcases x with (e | u) | v
  · have hinside := h.defined_iff.mp (defined_thrown e)
    have hpasses : ¬ w.passes := fun hp => nomatch h.returns_iff.mpr hp
    exact ⟨iff_of_true (defined_thrown e) ⟨hinside, fun hp => absurd hp hpasses⟩,
      iff_of_false nofun fun hp => hpasses hp.1⟩
  · have hinside : ¬ w.inside := fun hin => not_defined u (h.defined_iff.mpr hin)
    have hpasses : ¬ w.passes := fun hp => nomatch h.returns_iff.mpr hp
    exact ⟨iff_of_false (not_defined u) fun hin => hinside hin.1, iff_of_false nofun fun hp => hpasses hp.1⟩
  · have hinside := h.defined_iff.mp (defined_ok v)
    have hpasses := h.returns_iff.mp ⟨v, rfl⟩
    have hv := hf v rfl
    exact ⟨hv.defined_iff.trans ⟨fun hin => ⟨hinside, fun _ => hin⟩, fun hin => hin.2 hpasses⟩,
      hv.returns_iff.trans ⟨fun hp => ⟨hpasses, hp⟩, And.right⟩⟩

/-- Packing up a result. -/
lemma Walks.map (h : x.Walks w) (f : α → β) : Walks (x >>= fun v => .ok (f v)) w := by
  rcases x with (e | u) | v
  · exact ⟨(iff_of_true (defined_thrown e) (defined_thrown e)).trans h.defined_iff,
      (iff_of_false nofun nofun).trans h.returns_iff⟩
  · exact ⟨(iff_of_false (not_defined u) (not_defined u)).trans h.defined_iff,
      (iff_of_false nofun nofun).trans h.returns_iff⟩
  · exact ⟨(iff_of_true (defined_ok _) (defined_ok v)).trans h.defined_iff,
      (iff_of_true ⟨_, rfl⟩ ⟨v, rfl⟩).trans h.returns_iff⟩

lemma walks_needs {p : Prop} {u : Undefined} {v : α} (hpos : p → x = .ok v)
    (hneg : ¬ p → x = .error (.undefined u)) : x.Walks (.needs p) := by
  by_cases hp : p
  · rw [hpos hp]
    exact ⟨iff_of_true (defined_ok v) hp, iff_of_true ⟨v, rfl⟩ hp⟩
  · rw [hneg hp]
    exact ⟨iff_of_false (not_defined u) hp, iff_of_false nofun hp⟩

/-- A function that begins with an operation defined only under a condition. -/
lemma walks_needs_andThen {p : Prop} (hpos : p → x.Walks w) (hneg : ¬ p → ∃ u, x = .error (.undefined u)) :
    x.Walks ((Walk.needs p).andThen w) := by
  by_cases hp : p
  · have hx := hpos hp
    exact ⟨hx.defined_iff.trans ⟨fun hin => ⟨hp, fun _ => hin⟩, fun hin => hin.2 hp⟩,
      hx.returns_iff.trans ⟨fun hpasses => ⟨hp, hpasses⟩, And.right⟩⟩
  · obtain ⟨u, rfl⟩ := hneg hp
    exact ⟨iff_of_false (not_defined u) fun hin => hp hin.1, iff_of_false nofun fun hpasses => hp hpasses.1⟩

/-- A function that begins with a check. -/
lemma walks_throwsUnless_andThen {p : Prop} (hpos : p → x.Walks w)
    (hneg : ¬ p → ∃ e, x = .error (.thrown e)) : x.Walks ((Walk.throwsUnless p).andThen w) := by
  by_cases hp : p
  · have hx := hpos hp
    exact ⟨hx.defined_iff.trans ⟨fun hin => ⟨trivial, fun _ => hin⟩, fun hin => hin.2 hp⟩,
      hx.returns_iff.trans ⟨fun hpasses => ⟨hp, hpasses⟩, And.right⟩⟩
  · obtain ⟨e, rfl⟩ := hneg hp
    exact ⟨iff_of_true (defined_thrown e) ⟨trivial, fun hpasses => absurd hpasses hp⟩,
      iff_of_false nofun fun hpasses => hp hpasses.1⟩

end Outcome

open Outcome

lemma Follows.walks_needs {x : Outcome α} {reads : Prop} (h : Follows x reads False) :
    x.Walks (.needs reads) := by
  refine ⟨?_, h.reads_iff⟩
  exact (or_congr h.rejects_iff h.reads_iff).trans (iff_of_eq (false_or reads))

lemma Follows.walks_throwsUnless {x : Outcome α} {reads rejects : Prop} (h : Follows x reads rejects)
    (hall : reads ∨ rejects) : x.Walks (.throwsUnless reads) := by
  refine ⟨?_, h.reads_iff⟩
  exact (or_congr h.rejects_iff h.reads_iff).trans (iff_of_true hall.symm trivial)

lemma readOffset_walks (bytes : Bytes) : (readOffset bytes).Walks (.needs (4 ≤ bytes.length)) :=
  walks_needs (fun hin => readOffset_eq_ok.mpr ⟨hin, rfl⟩) fun hout => if_neg hout

lemma subrange_walks (bytes : Bytes) (first last : Nat) :
    (subrange bytes first last).Walks (.needs (first ≤ last ∧ last ≤ bytes.length)) :=
  walks_needs (fun hord => if_pos hord) fun hout => if_neg hout

/-- The length of a vector, and what is done with it. -/
lemma vectorLength_walks {vacSize : Nat} (hpos : vacSize ≠ 0) {bytes : Bytes} {f : Nat → Outcome α} {w : Walk}
    (hf : (f (bytes.length / vacSize)).Walks w) :
    (vectorLength vacSize bytes >>= f).Walks ((Walk.throwsUnless (bytes.length % vacSize = 0)).andThen w) := by
  unfold vectorLength
  rw [if_neg hpos]
  split
  · rename_i hmod
    exact walks_throwsUnless_andThen (fun hzero => absurd hzero hmod) fun _ => ⟨_, rfl⟩
  · rename_i hmod
    exact walks_throwsUnless_andThen (fun _ => hf) fun hnot => absurd hnot hmod

/-! ### Sequences -/

section Sequences

variable (walk : Bytes → α → Walk)

/-- The chunks go to the objects in order; a chunk too many is written behind the last one. -/
def chunksWalk : List Bytes → List α → Walk
  | [], _ => .done
  | _ :: _, [] => .needs False
  | chunk :: chunks, r :: ret => (walk chunk r).andThen (chunksWalk chunks ret)

/-- The elements from the one at `offset` on, with `count` offsets left to read from `idx` on. -/
def elementsWalk (vac : α) (bytes : Bytes) : (count offset idx : Nat) → Walk
  | 0, offset, _ => walk (bytes.drop offset) vac
  | count + 1, offset, idx =>
    let nextOffset := leNat ((bytes.drop idx).take 4)
    (Walk.needs (idx + 4 ≤ bytes.length)).andThen <|
      (Walk.needs (offset ≤ nextOffset ∧ nextOffset ≤ bytes.length)).andThen <|
        (walk ((bytes.drop offset).take (nextOffset - offset)) vac).andThen <|
          elementsWalk vac bytes count nextOffset (idx + 4)

/-- A sequence of elements of variable size: the first offset lies inside and stands for at least one
element. -/
def tableWalk (vac : α) (bytes : Bytes) : Walk :=
  if bytes = [] then .done
  else
    (Walk.needs (4 ≤ bytes.length)).andThen <| (Walk.needs (4 ≤ leNat (bytes.take 4))).andThen
      (elementsWalk walk vac bytes (leNat (bytes.take 4) / 4 - 1) (leNat (bytes.take 4)) 4)

variable {walk} {deserialize : Bytes → α → Outcome α} (h : ∀ p r, (deserialize p r).Walks (walk p r))
include h

lemma deserializeChunks_walks (chunks : List Bytes) (ret : List α) :
    (deserializeChunks deserialize chunks ret).Walks (chunksWalk walk chunks ret) := by
  induction ret generalizing chunks with
  | nil =>
    cases chunks with
    | nil => exact walks_done _
    | cons p ps => exact walks_needs (v := ⟨[], rfl⟩) False.elim fun _ => rfl
  | cons r ret ih =>
    cases chunks with
    | nil => exact walks_done _
    | cons p ps => exact (h p r).nested.bind fun v _ => (ih ps).map _

lemma deserializeVariableLoop_walks (vac : α) (bytes : Bytes) (count offset idx : Nat) :
    (deserializeVariableLoop deserialize vac bytes count offset idx).Walks
      (elementsWalk walk vac bytes count offset idx) := by
  induction count generalizing offset idx with
  | zero => exact (h _ vac).nested.map _
  | succ count ih =>
    have hlen : 4 ≤ (bytes.drop idx).length ↔ idx + 4 ≤ bytes.length := by
      rw [List.length_drop]
      omega
    have hread := readOffset_walks (bytes.drop idx)
    rw [propext hlen] at hread
    refine hread.bind fun nextOffset hnext => ?_
    obtain ⟨-, rfl⟩ := readOffset_eq_ok.mp hnext
    refine (subrange_walks bytes offset _).bind fun range hrange => ?_
    obtain ⟨-, -, rfl⟩ := subrange_eq_ok.mp hrange
    exact (h _ vac).nested.bind fun elem _ => (ih _ _).map _

lemma deserializeVariableVector_walks (vac : α) (bytes : Bytes) :
    (deserializeVariableVector deserialize vac bytes).Walks (tableWalk walk vac bytes) := by
  unfold deserializeVariableVector tableWalk
  split
  · exact walks_done _
  · refine (readOffset_walks bytes).bind fun offset hoffset => ?_
    obtain ⟨-, rfl⟩ := readOffset_eq_ok.mp hoffset
    cases hcount : leNat (bytes.take 4) / 4 with
    | zero =>
      have hlt : ¬ 4 ≤ leNat (bytes.take 4) := by omega
      exact walks_needs_andThen (fun hge => absurd hge hlt) fun _ => ⟨_, rfl⟩
    | succ count =>
      have hge : 4 ≤ leNat (bytes.take 4) := by omega
      exact walks_needs_andThen (fun _ => deserializeVariableLoop_walks h vac bytes count _ 4)
        fun hlt => absurd hge hlt

lemma deserializeChunked_walks (chunkSize : Nat) (bytes : Bytes) (ret : List α) :
    (deserializeChunked deserialize chunkSize bytes ret).Walks
      ((Walk.needs (chunkSize ≠ 0)).andThen (chunksWalk walk (pieces chunkSize bytes) ret)) := by
  unfold deserializeChunked
  split
  · rename_i hzero
    exact walks_needs_andThen (fun hpos => absurd hzero hpos) fun _ => ⟨_, rfl⟩
  · rename_i hpos
    exact walks_needs_andThen (fun _ => deserializeChunks_walks h _ ret) fun hzero => absurd hpos hzero

end Sequences

/-! ### Types -/

/-- Lists: a length that the elements divide, and then the copy of basic types, the chunks or the offsets. -/
def listWalk (e : SszType α) (walk : Bytes → α → Walk) (bytes : Bytes) : Walk :=
  if e.basicLayout.isSome then
    (Walk.throwsUnless (bytes.length % e.width = 0)).andThen
      (.needs ((SszType.array e (bytes.length / e.width)).Content bytes))
  else if e.variableSize then tableWalk walk e.vac bytes
  else
    (Walk.needs (e.width ≠ 0)).andThen <| (Walk.throwsUnless (bytes.length % e.width = 0)).andThen
      (chunksWalk walk (pieces e.width bytes) (List.replicate (bytes.length / e.width) e.vac))

/-- The offsets in the fixed part. -/
def Members.offsetTable {α : Type} : Members α → Bytes → α → List Nat
  | .nil, _, _ => []
  | .cons m ms, shifted, (v, vs) =>
    if m.variableSize then leNat (shifted.take 4) :: ms.offsetTable (shifted.drop 4) vs
    else ms.offsetTable (shifted.drop (m.size true v)) vs

mutual

/-- The walk of `deserialize(bytes, r)`. -/
def SszType.walk {α : Type} : SszType α → Bytes → α → Walk
  | .basic b, bytes, _ => .throwsUnless ((SszType.basic b).Reads bytes)
  | .array e n, bytes, r =>
    if e.basicLayout.isSome then
      (Walk.throwsUnless (n * e.width ≤ bytes.length)).andThen (.needs ((SszType.array e n).Content bytes))
    else if e.variableSize then .needs False
    else (Walk.needs (e.width ≠ 0)).andThen (chunksWalk e.walk (pieces e.width bytes) r.1)
  | .vector e, bytes, _ => listWalk e e.walk bytes
  | .list e _, bytes, _ => listWalk e e.walk bytes
  | .bitlist limit, bytes, _ =>
    (Walk.throwsUnless (bytes.length * 8 ≤ limit)).andThen (.needs (bytes ≠ []))
  | .bitset _, _, _ => .done
  | .container _ ms, bytes, r =>
    (ms.fixedWalk bytes r).andThen (ms.variableWalk bytes (ms.offsetTable bytes r) r)

/-- The first pass, over the fixed part: the offsets lie inside, and the fixed-size members are decoded
from what is left of their bytes. -/
def Members.fixedWalk {α : Type} : Members α → Bytes → α → Walk
  | .nil, _, _ => .done
  | .cons m ms, shifted, (v, vs) =>
    if m.variableSize then (Walk.needs (4 ≤ shifted.length)).andThen (ms.fixedWalk (shifted.drop 4) vs)
    else (m.walk (shifted.take (m.size true v)) v).andThen (ms.fixedWalk (shifted.drop (m.size true v)) vs)

/-- The second pass: the members of variable size are decoded from between their offset and the next,
which have to be ordered and inside, and the last one from what is left. -/
def Members.variableWalk {α : Type} : Members α → Bytes → List Nat → α → Walk
  | .nil, _, _, _ => .done
  | .cons m ms, bytes, table, (v, vs) =>
    if m.variableSize then
      match table with
      | [] => .done
      | [offset] => (m.walk (bytes.drop offset) v).andThen (ms.variableWalk bytes [offset] vs)
      | offset :: nextOffset :: table =>
        (Walk.needs (offset ≤ nextOffset ∧ nextOffset ≤ bytes.length)).andThen <|
          (m.walk ((bytes.drop offset).take (nextOffset - offset)) v).andThen
            (ms.variableWalk bytes (nextOffset :: table) vs)
    else ms.variableWalk bytes table vs

end

/-- With no offsets there is no second pass. -/
lemma Members.variableWalk_nil : {α : Type} → (ms : Members α) → (bytes : Bytes) → (r : α) →
    ms.variableWalk bytes [] r = .done
  | _, .nil, _, _ => rfl
  | _, .cons m ms, bytes, (_, vs) => by
    rw [variableWalk]
    split
    · rfl
    · exact ms.variableWalk_nil bytes vs

/-- The first pass leaves the members of variable size alone. -/
lemma Members.of_fixedPass : {α : Type} → (ms : Members α) → {bytes : Bytes} → {r r' : α} →
    {table : List Nat} → ms.deserializeFixedSizeMembers bytes r = .ok (r', table) →
    table = ms.offsetTable bytes r ∧
      ∀ bytes' table', ms.variableWalk bytes' table' r' = ms.variableWalk bytes' table' r
  | _, .nil, _, _, _, _, hrun => by
    cases hrun
    exact ⟨rfl, fun _ _ => rfl⟩
  | _, .cons m ms, bytes, (v, vs), _, _, hrun => by
    simp only [deserializeFixedSizeMembers] at hrun
    split at hrun
    · rename_i hvar
      obtain ⟨offset, hoffset, hrun⟩ := bind_eq_ok.mp hrun
      obtain ⟨⟨vs', offsets⟩, hrest, hrun⟩ := bind_eq_ok.mp hrun
      obtain ⟨rfl, hsame⟩ := ms.of_fixedPass hrest
      obtain ⟨-, rfl⟩ := readOffset_eq_ok.mp hoffset
      cases hrun
      refine ⟨by rw [offsetTable, if_pos hvar]; rfl, ?_⟩
      intro bytes' table'
      simp only [variableWalk, hvar, if_true, hsame]
    · rename_i hfix
      obtain ⟨w, -, hrun⟩ := bind_eq_ok.mp hrun
      obtain ⟨⟨vs', offsets⟩, hrest, hrun⟩ := bind_eq_ok.mp hrun
      obtain ⟨rfl, hsame⟩ := ms.of_fixedPass hrest
      cases hrun
      refine ⟨by rw [offsetTable, if_neg hfix], ?_⟩
      intro bytes' table'
      simp only [variableWalk, hfix, Bool.false_eq_true, if_false, hsame]

/-! ### Ranges of a type -/

lemma deserializeVector_walks {e : SszType α} (h : ∀ p r, (e.deserialize p r).Walks (e.walk p r))
    (bytes : Bytes) :
    (deserializeVector e.basicLayout e.variableSize e.deserialize e.vac e.width bytes).Walks
      (listWalk e e.walk bytes) := by
  unfold listWalk
  cases hlayout : e.basicLayout with
  | some layout =>
    cases e with
    | basic b =>
      cases hlayout
      have hle : bytes.length / b.sizeof * b.sizeof ≤ bytes.length := Nat.div_mul_le_self _ _
      exact vectorLength_walks b.sizeof_pos.ne' ((deserializeCopy_follows b hle).walks_needs.map _)
    | _ => cases hlayout
  | none =>
    simp only [deserializeVector, Option.isSome_none, Bool.false_eq_true, if_false]
    split
    · exact deserializeVariableVector_walks h e.vac bytes
    · unfold deserializeFixedVector
      by_cases hpos : e.width = 0
      · rw [vectorLength, if_pos hpos]
        exact walks_needs_andThen (fun hne => absurd hpos hne) fun _ => ⟨_, rfl⟩
      · refine walks_needs_andThen (fun _ => vectorLength_walks hpos ?_) fun hzero => absurd hpos hzero
        have hchunks : (deserializeChunked e.deserialize e.width bytes
            (List.replicate (bytes.length / e.width) e.vac)).Walks
            (chunksWalk e.walk (pieces e.width bytes) (List.replicate (bytes.length / e.width) e.vac)) := by
          rw [deserializeChunked, if_neg hpos]
          exact deserializeChunks_walks h _ _
        exact hchunks.map _

lemma deserializeArray_walks {e : SszType α} (h : ∀ p r, (e.deserialize p r).Walks (e.walk p r))
    {n : Nat} (bytes : Bytes) (r : StdArray α n) :
    ((SszType.array e n).deserialize bytes r).Walks ((SszType.array e n).walk bytes r) := by
  simp only [SszType.deserialize, SszType.walk]
  cases hlayout : e.basicLayout with
  | some layout =>
    cases e with
    | basic b =>
      cases hlayout
      change (deserializeBasicArray b.layout n bytes).Walks
        ((Walk.throwsUnless (n * b.sizeof ≤ bytes.length)).andThen (.needs _))
      unfold deserializeBasicArray
      rw [Nat.mul_comm n]
      split
      · rename_i hshort
        exact walks_throwsUnless_andThen (fun hle => absurd hshort (not_lt.mpr hle)) fun _ => ⟨_, rfl⟩
      · rename_i hlong
        have hle := not_lt.mp hlong
        exact walks_throwsUnless_andThen
          (fun _ => (deserializeCopy_follows b (Nat.mul_comm n _ ▸ hle)).walks_needs) fun hnot => absurd hle hnot
    | _ => cases hlayout
  | none =>
    simp only [deserializeArray, Option.isSome_none, Bool.false_eq_true, if_false]
    split
    · exact ⟨iff_of_false (not_defined _) id, iff_of_false nofun id⟩
    · exact (deserializeChunked_walks h e.width bytes r.1).map _

lemma deserializeBitlist_walks (limit : Nat) (bytes : Bytes) (r : List Bool) :
    (deserializeBitlist limit bytes r).Walks
      ((Walk.throwsUnless (bytes.length * 8 ≤ limit)).andThen (.needs (bytes ≠ []))) := by
  unfold deserializeBitlist
  split
  · rename_i hlong
    exact walks_throwsUnless_andThen (fun hle => absurd hlong (not_lt.mpr hle)) fun _ => ⟨_, rfl⟩
  · rename_i hshort
    refine walks_throwsUnless_andThen (fun _ => ?_) fun hlong => absurd (not_lt.mp hshort) hlong
    unfold deserializeVectorBool
    cases hlast : bytes.getLast? with
    | none =>
      have hnil : bytes = [] := List.getLast?_eq_none_iff.mp hlast
      exact ⟨iff_of_false (not_defined _) fun hne => hne hnil, iff_of_false nofun fun hne => hne hnil⟩
    | some last =>
      have hne : bytes ≠ [] := by
        rintro rfl
        cases hlast
      exact ⟨iff_of_true (defined_ok _) hne, iff_of_true ⟨_, rfl⟩ hne⟩

/-! ### All decoders -/

mutual

/-- The decoder of every type does what its walk says. -/
theorem SszType.walks : {α : Type} → (τ : SszType α) → (bytes : Bytes) → (r : α) →
    (τ.deserialize bytes r).Walks (τ.walk bytes r)
  | _, .basic b, bytes, _ => by
    have hfollows := BasicType.follows b bytes
    refine hfollows.walks_throwsUnless ?_
    by_cases hlen : b.sizeof ≤ bytes.length ∧ (SszType.basic b).Content (bytes.take b.sizeof)
    · exact .inl hlen
    · exact .inr ((not_and_or.mp hlen).imp_left not_le.mp)
  | _, .array e n, bytes, r => deserializeArray_walks e.walks bytes r
  | _, .vector e, bytes, _ => deserializeVector_walks e.walks bytes
  | _, .list e _, bytes, _ => deserializeVector_walks e.walks bytes
  | _, .bitlist limit, bytes, r => deserializeBitlist_walks limit bytes r
  | _, .bitset _, _, _ => walks_done _
  | _, .container _ ms, bytes, r => by
    refine (Members.fixedWalks ms bytes r).bind fun ⟨r', table⟩ hrun => ?_
    obtain ⟨rfl, hsame⟩ := ms.of_fixedPass hrun
    rw [← hsame]
    cases ms.offsetTable bytes r with
    | nil =>
      rw [ms.variableWalk_nil]
      exact walks_done r'
    | cons offset table => exact Members.variableWalks ms bytes offset table r'

theorem Members.fixedWalks : {α : Type} → (ms : Members α) → (shifted : Bytes) → (r : α) →
    (ms.deserializeFixedSizeMembers shifted r).Walks (ms.fixedWalk shifted r)
  | _, .nil, _, _ => walks_done _
  | _, .cons m ms, shifted, (v, vs) => by
    rw [Members.deserializeFixedSizeMembers, Members.fixedWalk]
    split
    · exact (readOffset_walks shifted).bind fun offset _ => (Members.fixedWalks ms _ vs).map _
    · exact (SszType.walks m _ v).nested.bind fun w _ => (Members.fixedWalks ms _ vs).map _

theorem Members.variableWalks : {α : Type} → (ms : Members α) → (bytes : Bytes) → (offset : Nat) →
    (table : List Nat) → (r : α) →
    (ms.deserializeVariableSizeMembers bytes offset table r).Walks (ms.variableWalk bytes (offset :: table) r)
  | _, .nil, _, _, _, _ => walks_done _
  | _, .cons m ms, bytes, offset, table, (v, vs) => by
    simp only [Members.deserializeVariableSizeMembers, Members.variableWalk]
    split
    · cases table with
      | nil =>
        exact (SszType.walks m _ v).nested.bind fun w _ =>
          (Members.variableWalks ms bytes offset [] vs).map _
      | cons nextOffset table =>
        refine (subrange_walks bytes offset nextOffset).bind fun range hrange => ?_
        obtain ⟨-, -, rfl⟩ := subrange_eq_ok.mp hrange
        exact (SszType.walks m _ v).nested.bind fun w _ =>
          (Members.variableWalks ms bytes nextOffset table vs).map _
    · exact (Members.variableWalks ms bytes offset table vs).map _

end

end Sszpp
