import Mathlib.Data.List.Basic
import Mathlib.Data.List.Perm.Basic
import Mathlib.Data.Nat.Basic
import Mathlib.Order.Basic
import Mathlib.Tactic.Cases

/-!
# Threads that fork and join

A thread that forks allocates a buffer of two halves, starts a second thread for the right half, goes on
itself with the left one and waits for both. The threads take their steps in any order. What a program
returns, how many steps it takes and what these are does not depend on the order.
-/

namespace Sszpp.Library

variable {S E R A B : Type}

/-- What a thread does: it may stop, and `R` is what a thread leaves in its half of a buffer. -/
inductive Program (S E R : Type) : Type → Type 1
  | ret {A : Type} (a : A) : Program S E R A
  | halt {A : Type} (s : S) : Program S E R A
  | event {A : Type} (e : E) (rest : Program S E R A) : Program S E R A
  | fork {A : Type} (left right : Program S E R R) (join : R → R → Program S E R A) : Program S E R A

/-- A step without the buffer that it is on. -/
inductive Mark (E : Type)
  | event (e : E)
  | alloc
  | write
  | read

def Mark.event? : Mark E → Option E
  | .event e => some e
  | _ => none

namespace Program

/-- The result and the steps of the run in which a thread that has forked takes no step before the
threads of both halves have ended. -/
def run {A : Type} : Program S E R A → Except S (A × List (Mark E))
  | ret a => .ok (a, [])
  | halt s => .error s
  | event e rest => do
    let (a, marks) ← rest.run
    .ok (a, .event e :: marks)
  | fork left right join => do
    let (c, ms) ← left.run
    let (d, ns) ← right.run
    let (a, marks) ← (join c d).run
    .ok (a, .alloc :: ((ms ++ [.write]) ++ (ns ++ [.write]) ++ .read :: marks))

/-- One program after another. -/
def bind {A B : Type} : Program S E R A → (A → Program S E R B) → Program S E R B
  | ret a, f => f a
  | halt s, _ => halt s
  | event e rest, f => event e (rest.bind f)
  | fork left right join, f => fork left right fun c d => (join c d).bind f

instance : Monad (Program S E R) where
  pure := ret
  bind := bind

/-- A program without forks, from its result and its events. -/
def serial : Except S (A × List E) → Program S E R A
  | .ok (a, events) => events.foldr event (ret a)
  | .error s => halt s

end Program

/-! ### The machine -/

/-- The buffers that were allocated are those before `next`. -/
structure Heap (R : Type) where
  next : Nat
  half : Nat → Bool → R

/-- A buffer whose halves hold `initial`. -/
def Heap.alloc (h : Heap R) (initial : R) : Heap R :=
  ⟨h.next + 1, fun b x => if b = h.next then initial else h.half b x⟩

def Heap.write (h : Heap R) (b : Nat) (x : Bool) (r : R) : Heap R :=
  ⟨h.next, fun b' x' => if b' = b ∧ x' = x then r else h.half b' x'⟩

/-- A thread and those that it waits for. A thread that has written its half is finished. -/
inductive Task (S E R : Type) : Type → Type 1
  | running {A : Type} (p : Program S E R A) : Task S E R A
  | waiting {A : Type} (buffer : Nat) (left right : Task S E R R) (join : R → R → Program S E R A) : Task S E R A
  | finished {A : Type} : Task S E R A

inductive Action (E : Type)
  | event (e : E)
  | alloc (buffer : Nat)
  | write (buffer : Nat) (half : Bool)
  | read (buffer : Nat)
  deriving DecidableEq

def Action.mark : Action E → Mark E
  | event e => .event e
  | alloc _ => .alloc
  | write _ _ => .write
  | read _ => .read

/-- The events of a run. -/
def events (trace : List (Action E)) : List E := trace.filterMap fun a => a.mark.event?

/-- A step of one of the threads. -/
inductive Step (initial : R) :
    {A : Type} → Heap R → Task S E R A → Action E → Heap R → Task S E R A → Prop
  | event {A : Type} (h : Heap R) (e : E) (rest : Program S E R A) :
    Step initial h (.running (.event e rest)) (.event e) h (.running rest)
  | fork {A : Type} (h : Heap R) (left right : Program S E R R) (join : R → R → Program S E R A) :
    Step initial h (.running (.fork left right join)) (.alloc h.next) (h.alloc initial)
      (.waiting h.next (.running left) (.running right) join)
  | left {A : Type} {h h' : Heap R} {left left' : Task S E R R} {a : Action E} (b : Nat)
    (right : Task S E R R) (join : R → R → Program S E R A) (hstep : Step initial h left a h' left') :
    Step initial h (.waiting b left right join) a h' (.waiting b left' right join)
  | right {A : Type} {h h' : Heap R} {right right' : Task S E R R} {a : Action E} (b : Nat)
    (left : Task S E R R) (join : R → R → Program S E R A) (hstep : Step initial h right a h' right') :
    Step initial h (.waiting b left right join) a h' (.waiting b left right' join)
  | writeLeft {A : Type} (h : Heap R) (b : Nat) (r : R) (right : Task S E R R)
    (join : R → R → Program S E R A) :
    Step initial h (.waiting b (.running (.ret r)) right join) (.write b false) (h.write b false r)
      (.waiting b .finished right join)
  | writeRight {A : Type} (h : Heap R) (b : Nat) (r : R) (left : Task S E R R)
    (join : R → R → Program S E R A) :
    Step initial h (.waiting b left (.running (.ret r)) join) (.write b true) (h.write b true r)
      (.waiting b left .finished join)
  | join {A : Type} (h : Heap R) (b : Nat) (join : R → R → Program S E R A) :
    Step initial h (.waiting b .finished .finished join) (.read b) h
      (.running (join (h.half b false) (h.half b true)))

/-- The actions of a run, the first one first. -/
inductive Steps (initial : R) {A : Type} (h : Heap R) (t : Task S E R A) :
    List (Action E) → Heap R → Task S E R A → Prop
  | refl : Steps initial h t [] h t
  | snoc {trace : List (Action E)} {a : Action E} {h' h'' : Heap R} {t' t'' : Task S E R A}
    (hsteps : Steps initial h t trace h' t') (hstep : Step initial h' t' a h'' t'') :
    Steps initial h t (trace ++ [a]) h'' t''

/-! ### What is left to do -/

namespace Task

/-- The buffers of the threads that wait. -/
def buffers {A : Type} : Task S E R A → List Nat
  | running _ => []
  | waiting b left right _ => b :: (left.buffers ++ right.buffers)
  | finished => []

/-- The write of a thread that has not finished. -/
def pending {A : Type} : Task S E R A → List (Mark E)
  | finished => []
  | _ => [.write]

/-- The result and the steps of the rest of a run, where `r` is the result of a thread that has
finished. -/
def rest {A : Type} (h : Heap R) : Task S E R A → A → Except S (A × List (Mark E))
  | running p, _ => p.run
  | finished, r => .ok (r, [])
  | waiting b left right join, _ => do
    let (c, ms) ← left.rest h (h.half b false)
    let (d, ns) ← right.rest h (h.half b true)
    let (a, marks) ← (join c d).run
    .ok (a, (ms ++ left.pending) ++ (ns ++ right.pending) ++ .read :: marks)

/-- The buffers of a task are different ones and were allocated. -/
structure Owns (h : Heap R) {A : Type} (t : Task S E R A) : Prop where
  nodup : t.buffers.Nodup
  lt : ∀ b ∈ t.buffers, b < h.next

end Task

lemma except_bind_eq_ok {x : Except S A} {f : A → Except S B} {b : B} :
    (x >>= f) = .ok b ↔ ∃ a, x = .ok a ∧ f a = .ok b := by
  cases x with
  | error s => exact ⟨nofun, fun ⟨_, h, _⟩ => nomatch h⟩
  | ok a => exact ⟨fun h => ⟨a, rfl, h⟩, fun ⟨_, h, hf⟩ => by cases h; exact hf⟩

lemma Program.run_fork_eq_ok {left right : Program S E R R} {join : R → R → Program S E R A} {a : A}
    {marks : List (Mark E)} : (Program.fork left right join).run = .ok (a, marks) ↔
      ∃ c ms d ns rest, left.run = .ok (c, ms) ∧ right.run = .ok (d, ns) ∧ (join c d).run = .ok (a, rest) ∧
        marks = .alloc :: ((ms ++ [.write]) ++ (ns ++ [.write]) ++ .read :: rest) := by
  constructor
  · intro h
    obtain ⟨⟨c, ms⟩, hleft, h⟩ := except_bind_eq_ok.mp h
    obtain ⟨⟨d, ns⟩, hright, h⟩ := except_bind_eq_ok.mp h
    obtain ⟨⟨a, rest⟩, hjoin, h⟩ := except_bind_eq_ok.mp h
    cases h
    exact ⟨c, ms, d, ns, rest, hleft, hright, hjoin, rfl⟩
  · rintro ⟨c, ms, d, ns, rest, hleft, hright, hjoin, rfl⟩
    exact except_bind_eq_ok.mpr ⟨_, hleft, except_bind_eq_ok.mpr ⟨_, hright, except_bind_eq_ok.mpr ⟨_, hjoin, rfl⟩⟩⟩

lemma filterMap_fork (ms ns marks : List (Mark E)) :
    (Mark.alloc :: ((ms ++ [.write]) ++ (ns ++ [.write]) ++ .read :: marks)).filterMap Mark.event? =
      ms.filterMap Mark.event? ++ ns.filterMap Mark.event? ++ marks.filterMap Mark.event? := by
  simp [List.filterMap_cons, Mark.event?]

lemma Task.rest_waiting_eq_ok {h : Heap R} {b : Nat} {left right : Task S E R R}
    {join : R → R → Program S E R A} {r a : A} {marks : List (Mark E)} :
    (Task.waiting b left right join).rest h r = .ok (a, marks) ↔
      ∃ c ms d ns rest, left.rest h (h.half b false) = .ok (c, ms) ∧ right.rest h (h.half b true) = .ok (d, ns) ∧
        (join c d).run = .ok (a, rest) ∧
        marks = (ms ++ left.pending) ++ (ns ++ right.pending) ++ .read :: rest := by
  constructor
  · intro h
    obtain ⟨⟨c, ms⟩, hleft, h⟩ := except_bind_eq_ok.mp h
    obtain ⟨⟨d, ns⟩, hright, h⟩ := except_bind_eq_ok.mp h
    obtain ⟨⟨a, rest⟩, hjoin, h⟩ := except_bind_eq_ok.mp h
    cases h
    exact ⟨c, ms, d, ns, rest, hleft, hright, hjoin, rfl⟩
  · rintro ⟨c, ms, d, ns, rest, hleft, hright, hjoin, rfl⟩
    exact except_bind_eq_ok.mpr ⟨_, hleft, except_bind_eq_ok.mpr ⟨_, hright, except_bind_eq_ok.mpr ⟨_, hjoin, rfl⟩⟩⟩

/-- The events of a program that runs on one thread. -/
lemma Program.run_serial (a : A) (events : List E) :
    (Program.serial (.ok (a, events)) : Program S E R A).run = .ok (a, events.map .event) := by
  induction events with
  | nil => rfl
  | cons e events ih => exact except_bind_eq_ok.mpr ⟨_, ih, rfl⟩

lemma Program.run_bind {p : Program S E R A} {f : A → Program S E R B} {a : A} {b : B} {ms ns : List (Mark E)}
    (hp : p.run = .ok (a, ms)) (hf : (f a).run = .ok (b, ns)) : (p.bind f).run = .ok (b, ms ++ ns) := by
  induction p generalizing ms with
  | ret a =>
    cases hp
    exact hf
  | halt s => cases hp
  | event e rest ih =>
    obtain ⟨⟨a, marks⟩, hrest, hp⟩ := except_bind_eq_ok.mp hp
    cases hp
    exact except_bind_eq_ok.mpr ⟨_, ih hrest hf, rfl⟩
  | fork left right join _ _ ihjoin =>
    obtain ⟨c, ms, d, ms', rest, hleft, hright, hjoin, rfl⟩ := Program.run_fork_eq_ok.mp hp
    refine Program.run_fork_eq_ok.mpr ⟨c, ms, d, ms', rest ++ ns, hleft, hright, ihjoin c d hjoin hf, ?_⟩
    simp only [List.cons_append, List.append_assoc]

/-! ### What a step changes -/

lemma Heap.write_of_ne (h : Heap R) {b b' : Nat} (x : Bool) (r : R) (hne : b' ≠ b) (x' : Bool) :
    (h.write b x r).half b' x' = h.half b' x' := if_neg fun heq => hne heq.1

lemma Heap.write_of_not_mem (h : Heap R) {b : Nat} (x : Bool) (r : R) {buffers : List Nat} (hb : b ∉ buffers) :
    ∀ b' ∈ buffers, ∀ x', (h.write b x r).half b' x' = h.half b' x' :=
  fun _ hb' => h.write_of_ne x r (ne_of_mem_of_not_mem hb' hb)

lemma Heap.write_self (h : Heap R) (b : Nat) (x : Bool) (r : R) : (h.write b x r).half b x = r :=
  if_pos ⟨rfl, rfl⟩

lemma Heap.write_other (h : Heap R) (b : Nat) {x x' : Bool} (r : R) (hne : x' ≠ x) :
    (h.write b x r).half b x' = h.half b x' := if_neg fun heq => hne heq.2

variable {initial : R} {h h' : Heap R} {t t' : Task S E R A} {a : Action E}

/-- A step changes the buffers of its own task and allocates new ones. -/
structure Frame (h h' : Heap R) (t t' : Task S E R A) : Prop where
  next_le : h.next ≤ h'.next
  half_eq : ∀ b < h.next, b ∉ t.buffers → ∀ x, h'.half b x = h.half b x
  mem : ∀ b ∈ t'.buffers, b ∈ t.buffers ∨ h.next ≤ b ∧ b < h'.next

lemma Step.frame (hstep : Step initial h t a h' t') : Frame h h' t t' := by
  induction hstep with
  | event h e rest => exact ⟨le_refl _, fun _ _ _ _ => rfl, fun b hb => .inl hb⟩
  | fork h left right join =>
    refine ⟨Nat.le_succ _, fun b hlt _ x => if_neg (Nat.ne_of_lt hlt), fun b hb => .inr ?_⟩
    obtain rfl : b = h.next := List.mem_singleton.mp hb
    exact ⟨le_refl _, Nat.lt_succ_self _⟩
  | left b right join hstep ih =>
    refine ⟨ih.next_le, fun b' hlt hb' x => ih.half_eq b' hlt (fun hmem => hb' ?_) x, fun b' hb' => ?_⟩
    · exact List.mem_cons_of_mem _ (List.mem_append_left _ hmem)
    · rcases List.mem_cons.mp hb' with rfl | hb'
      · exact .inl List.mem_cons_self
      · rcases List.mem_append.mp hb' with hb' | hb'
        · exact (ih.mem b' hb').imp_left fun hmem => List.mem_cons_of_mem _ (List.mem_append_left _ hmem)
        · exact .inl (List.mem_cons_of_mem _ (List.mem_append_right _ hb'))
  | right b left join hstep ih =>
    refine ⟨ih.next_le, fun b' hlt hb' x => ih.half_eq b' hlt (fun hmem => hb' ?_) x, fun b' hb' => ?_⟩
    · exact List.mem_cons_of_mem _ (List.mem_append_right _ hmem)
    · rcases List.mem_cons.mp hb' with rfl | hb'
      · exact .inl List.mem_cons_self
      · rcases List.mem_append.mp hb' with hb' | hb'
        · exact .inl (List.mem_cons_of_mem _ (List.mem_append_left _ hb'))
        · exact (ih.mem b' hb').imp_left fun hmem => List.mem_cons_of_mem _ (List.mem_append_right _ hmem)
  | writeLeft h b r right join =>
    refine ⟨le_refl _, fun b' _ hb' x => h.write_of_ne false r (fun heq => hb' ?_) x, fun b' hb' => .inl hb'⟩
    exact heq ▸ List.mem_cons_self
  | writeRight h b r left join =>
    refine ⟨le_refl _, fun b' _ hb' x => h.write_of_ne true r (fun heq => hb' ?_) x, fun b' hb' => .inl hb'⟩
    exact heq ▸ List.mem_cons_self
  | join h b join => exact ⟨le_refl _, fun _ _ _ _ => rfl, fun b' hb' => nomatch hb'⟩

namespace Task.Owns

variable {b : Nat} {left right : Task S E R R} {join : R → R → Program S E R A}

lemma left_owns (ht : (waiting b left right join).Owns h) : left.Owns h where
  nodup := (List.nodup_append.mp (List.nodup_cons.mp ht.nodup).2).1
  lt b' hb' := ht.lt b' (List.mem_cons_of_mem _ (List.mem_append_left _ hb'))

lemma right_owns (ht : (waiting b left right join).Owns h) : right.Owns h where
  nodup := (List.nodup_append.mp (List.nodup_cons.mp ht.nodup).2).2.1
  lt b' hb' := ht.lt b' (List.mem_cons_of_mem _ (List.mem_append_right _ hb'))

lemma not_mem_left (ht : (waiting b left right join).Owns h) : b ∉ left.buffers := fun hb =>
  (List.nodup_cons.mp ht.nodup).1 (List.mem_append_left _ hb)

lemma not_mem_right (ht : (waiting b left right join).Owns h) : b ∉ right.buffers := fun hb =>
  (List.nodup_cons.mp ht.nodup).1 (List.mem_append_right _ hb)

lemma disjoint (ht : (waiting b left right join).Owns h) {b' : Nat} (hleft : b' ∈ left.buffers) :
    b' ∉ right.buffers := fun hright =>
  (List.nodup_append.mp (List.nodup_cons.mp ht.nodup).2).2.2 b' hleft b' hright rfl

lemma lt_next (ht : (waiting b left right join).Owns h) : b < h.next := ht.lt b List.mem_cons_self

lemma mk_waiting (hleft : left.Owns h) (hright : right.Owns h) (hb : b < h.next) (hnotLeft : b ∉ left.buffers)
    (hnotRight : b ∉ right.buffers) (hdisjoint : ∀ b' ∈ left.buffers, b' ∉ right.buffers) :
    (waiting b left right join).Owns h where
  nodup := by
    refine List.nodup_cons.mpr ⟨fun hmem => ?_, List.nodup_append.mpr ⟨hleft.nodup, hright.nodup, ?_⟩⟩
    · exact (List.mem_append.mp hmem).elim hnotLeft hnotRight
    · rintro b' hb' _ hright' rfl
      exact hdisjoint b' hb' hright'
  lt b' hb' := by
    rcases List.mem_cons.mp hb' with rfl | hb'
    · exact hb
    · exact (List.mem_append.mp hb').elim (hleft.lt b') (hright.lt b')

lemma mono {h' : Heap R} (ht : t.Owns h) (hle : h.next ≤ h'.next) : t.Owns h' where
  nodup := ht.nodup
  lt b hb := (ht.lt b hb).trans_le hle

end Task.Owns

lemma Frame.not_mem {b : Nat} (hframe : Frame h h' t t') (hlt : b < h.next) (hb : b ∉ t.buffers) :
    b ∉ t'.buffers := fun hmem => (hframe.mem b hmem).elim hb fun hnew => absurd hlt (not_lt.mpr hnew.1)

/-- Steps keep the buffers apart. -/
lemma Step.owns (hstep : Step initial h t a h' t') (ht : t.Owns h) : t'.Owns h' := by
  induction hstep with
  | event h e rest => exact ⟨List.nodup_nil, nofun⟩
  | fork h left right join =>
    exact .mk_waiting ⟨List.nodup_nil, nofun⟩ ⟨List.nodup_nil, nofun⟩ (Nat.lt_succ_self _) nofun nofun nofun
  | left b right join hstep ih =>
    have hframe := hstep.frame
    refine .mk_waiting (ih ht.left_owns) (ht.right_owns.mono hframe.next_le) (ht.lt_next.trans_le hframe.next_le)
      (hframe.not_mem ht.lt_next ht.not_mem_left) ht.not_mem_right fun b' hb' hright => ?_
    exact hframe.not_mem (ht.right_owns.lt b' hright) (fun hleft => ht.disjoint hleft hright) hb'
  | right b left join hstep ih =>
    have hframe := hstep.frame
    refine .mk_waiting (ht.left_owns.mono hframe.next_le) (ih ht.right_owns) (ht.lt_next.trans_le hframe.next_le)
      ht.not_mem_left (hframe.not_mem ht.lt_next ht.not_mem_right) fun b' hb' => ?_
    exact hframe.not_mem (ht.left_owns.lt b' hb') (ht.disjoint hb')
  | writeLeft h b r right join =>
    exact .mk_waiting ⟨List.nodup_nil, nofun⟩ (ht.right_owns.mono (le_refl _)) ht.lt_next nofun ht.not_mem_right nofun
  | writeRight h b r left join =>
    exact .mk_waiting (ht.left_owns.mono (le_refl _)) ⟨List.nodup_nil, nofun⟩ ht.lt_next ht.not_mem_left nofun
      fun _ _ => nofun
  | join h b join => exact ⟨List.nodup_nil, nofun⟩

/-- The rest of a run depends on the buffers of the task only. -/
lemma Task.rest_congr {A : Type} {t : Task S E R A} (hhalf : ∀ b ∈ t.buffers, ∀ x, h'.half b x = h.half b x) (r : A) :
    t.rest h' r = t.rest h r := by
  induction t with
  | running p => rfl
  | finished => rfl
  | waiting b left right join ihleft ihright =>
    have hb := hhalf b List.mem_cons_self
    have hleft := ihleft (fun b' hb' => hhalf b' (List.mem_cons_of_mem _ (List.mem_append_left _ hb')))
    have hright := ihright (fun b' hb' => hhalf b' (List.mem_cons_of_mem _ (List.mem_append_right _ hb')))
    rw [Task.rest, Task.rest, hb, hb, hleft, hright]

lemma perm_of_left {m : Mark E} {ms ms' pending : List (Mark E)} (hperm : ms.Perm (m :: ms'))
    (middle tail : List (Mark E)) :
    ((ms ++ pending) ++ middle ++ tail).Perm (m :: ((ms' ++ pending) ++ middle ++ tail)) :=
  ((hperm.append_right pending).append_right middle).append_right tail

lemma perm_of_right {m : Mark E} {ns ns' pending : List (Mark E)} (hperm : ns.Perm (m :: ns'))
    (front tail : List (Mark E)) :
    (front ++ (ns ++ pending) ++ tail).Perm (m :: (front ++ (ns' ++ pending) ++ tail)) :=
  (((hperm.append_right pending).append_left front).trans List.perm_middle).append_right tail

/-- A step takes its mark off the rest of the run. -/
theorem Step.rest (hstep : Step initial h t a h' t') (ht : t.Owns h) {w v : A} {marks : List (Mark E)}
    (hrest : t.rest h w = .ok (v, marks)) :
    ∃ marks', t'.rest h' w = .ok (v, marks') ∧ marks.Perm (a.mark :: marks') := by
  induction hstep generalizing marks with
  | event h e rest =>
    obtain ⟨⟨v', marks'⟩, hrun, hrest⟩ := except_bind_eq_ok.mp hrest
    cases hrest
    exact ⟨marks', hrun, .refl _⟩
  | fork h left right join =>
    obtain ⟨c, ms, d, ns, rest, hleft, hright, hjoin, rfl⟩ := Program.run_fork_eq_ok.mp hrest
    exact ⟨_, Task.rest_waiting_eq_ok.mpr ⟨c, ms, d, ns, rest, hleft, hright, hjoin, rfl⟩, .refl _⟩
  | @left _ h h' left left' a b right join hstep ih =>
    obtain ⟨c, ms, d, ns, rest, hleft, hright, hjoin, rfl⟩ := Task.rest_waiting_eq_ok.mp hrest
    have hframe := hstep.frame
    have hhalf := hframe.half_eq b ht.lt_next ht.not_mem_left
    obtain ⟨ms', hleft', hperm⟩ := ih ht.left_owns hleft
    have hright' : right.rest h' (h'.half b true) = .ok (d, ns) := by
      rw [hhalf, Task.rest_congr fun b' hb' => hframe.half_eq b' (ht.right_owns.lt b' hb') fun hmem =>
        ht.disjoint hmem hb', hright]
    have hpending : left'.pending = left.pending := by
      cases hstep <;> rfl
    rw [← hhalf] at hleft'
    refine ⟨_, Task.rest_waiting_eq_ok.mpr ⟨c, ms', d, ns, rest, hleft', hright', hjoin, rfl⟩, ?_⟩
    rw [hpending]
    exact perm_of_left hperm _ _
  | @right _ h h' right right' a b left join hstep ih =>
    obtain ⟨c, ms, d, ns, rest, hleft, hright, hjoin, rfl⟩ := Task.rest_waiting_eq_ok.mp hrest
    have hframe := hstep.frame
    have hhalf := hframe.half_eq b ht.lt_next ht.not_mem_right
    obtain ⟨ns', hright', hperm⟩ := ih ht.right_owns hright
    have hleft' : left.rest h' (h'.half b false) = .ok (c, ms) := by
      rw [hhalf, Task.rest_congr fun b' hb' => hframe.half_eq b' (ht.left_owns.lt b' hb') fun hmem =>
        ht.disjoint hb' hmem, hleft]
    have hpending : right'.pending = right.pending := by
      cases hstep <;> rfl
    rw [← hhalf] at hright'
    refine ⟨_, Task.rest_waiting_eq_ok.mpr ⟨c, ms, d, ns', rest, hleft', hright', hjoin, rfl⟩, ?_⟩
    rw [hpending]
    exact perm_of_right hperm _ _
  | writeLeft h b r right join =>
    obtain ⟨c, ms, d, ns, rest, hleft, hright, hjoin, rfl⟩ := Task.rest_waiting_eq_ok.mp hrest
    cases hleft
    have hleft' : (Task.finished : Task S E R R).rest (h.write b false r) ((h.write b false r).half b false) =
        .ok (r, []) := by
      rw [h.write_self]
      rfl
    have hright' : right.rest (h.write b false r) ((h.write b false r).half b true) = .ok (d, ns) := by
      rw [h.write_other b r (by decide), Task.rest_congr (h.write_of_not_mem false r ht.not_mem_right), hright]
    exact ⟨_, Task.rest_waiting_eq_ok.mpr ⟨r, [], d, ns, rest, hleft', hright', hjoin, rfl⟩, .refl _⟩
  | writeRight h b r left join =>
    obtain ⟨c, ms, d, ns, rest, hleft, hright, hjoin, rfl⟩ := Task.rest_waiting_eq_ok.mp hrest
    cases hright
    have hright' : (Task.finished : Task S E R R).rest (h.write b true r) ((h.write b true r).half b true) =
        .ok (r, []) := by
      rw [h.write_self]
      rfl
    have hleft' : left.rest (h.write b true r) ((h.write b true r).half b false) = .ok (c, ms) := by
      rw [h.write_other b r (by decide), Task.rest_congr (h.write_of_not_mem true r ht.not_mem_left), hleft]
    refine ⟨_, Task.rest_waiting_eq_ok.mpr ⟨c, ms, r, [], rest, hleft', hright', hjoin, rfl⟩, ?_⟩
    exact List.perm_middle.append_right _
  | join h b join =>
    obtain ⟨c, ms, d, ns, rest, hleft, hright, hjoin, rfl⟩ := Task.rest_waiting_eq_ok.mp hrest
    cases hleft
    cases hright
    exact ⟨rest, hjoin, .refl _⟩

/-! ### Runs -/

/-- No buffer was allocated. -/
def Heap.empty (initial : R) : Heap R := ⟨0, fun _ _ => initial⟩

lemma Task.owns_running (h : Heap R) (p : Program S E R A) : (Task.running p).Owns h := ⟨List.nodup_nil, nofun⟩

lemma Step.ne_finished (hstep : Step initial h t a h' t') : t' ≠ .finished := by
  cases hstep <;> exact nofun

variable {trace : List (Action E)}

lemma Steps.ne_finished (hsteps : Steps initial h t trace h' t') (ht : t ≠ .finished) : t' ≠ .finished := by
  cases hsteps with
  | refl => exact ht
  | snoc _ hstep => exact hstep.ne_finished

lemma Steps.owns (hsteps : Steps initial h t trace h' t') (ht : t.Owns h) : t'.Owns h' := by
  induction hsteps with
  | refl => exact ht
  | snoc _ hstep ih => exact hstep.owns ih

/-- The steps taken and those left are the steps there were. -/
lemma Steps.rest (hsteps : Steps initial h t trace h' t') (ht : t.Owns h) {w v : A} {marks : List (Mark E)}
    (hrest : t.rest h w = .ok (v, marks)) :
    ∃ marks', t'.rest h' w = .ok (v, marks') ∧ marks.Perm (trace.map Action.mark ++ marks') := by
  induction hsteps with
  | refl => exact ⟨marks, hrest, .refl _⟩
  | @snoc trace a _ _ _ _ hsteps hstep ih =>
    obtain ⟨ms, hms, hperm⟩ := ih
    obtain ⟨ns, hns, hperm'⟩ := hstep.rest (hsteps.owns ht) hms
    refine ⟨ns, hns, hperm.trans ?_⟩
    rw [List.map_append, List.append_assoc]
    exact hperm'.append_left _

/-- A task whose rest returns can take a step until it has returned. -/
lemma Task.progress (initial : R) {A : Type} {t : Task S E R A} {h : Heap R} {w v : A} {marks : List (Mark E)}
    (hrest : t.rest h w = .ok (v, marks)) :
    t = .running (.ret v) ∨ t = .finished ∨ ∃ a h' t', Step initial h t a h' t' := by
  induction t generalizing marks with
  | running p =>
    cases p with
    | ret x =>
      cases hrest
      exact .inl rfl
    | halt s => cases hrest
    | event e rest => exact .inr (.inr ⟨_, _, _, .event h e rest⟩)
    | fork left right join => exact .inr (.inr ⟨_, _, _, .fork h left right join⟩)
  | finished => exact .inr (.inl rfl)
  | waiting b left right join ihleft ihright =>
    obtain ⟨c, ms, d, ns, rest, hleft, hright, -, -⟩ := Task.rest_waiting_eq_ok.mp hrest
    refine .inr (.inr ?_)
    rcases ihleft hleft with rfl | rfl | ⟨a, h', left', hstep⟩
    · exact ⟨_, _, _, .writeLeft h b c right join⟩
    · rcases ihright hright with rfl | rfl | ⟨a, h', right', hstep⟩
      · exact ⟨_, _, _, .writeRight h b d .finished join⟩
      · exact ⟨_, _, _, .join h b join⟩
      · exact ⟨_, _, _, .right b .finished join hstep⟩
    · exact ⟨_, _, _, .left b right join hstep⟩

/-- No order of the steps makes a difference: as long as the program has not returned its result a step is
possible, and when it has, every step has been taken once. -/
theorem Steps.returns {p : Program S E R A} {v : A} {marks : List (Mark E)} (hrun : p.run = .ok (v, marks))
    (hsteps : Steps initial (.empty initial) (.running p) trace h t) :
    (t = .running (.ret v) ∧ marks.Perm (trace.map Action.mark)) ∨
      (∃ left, left ≠ [] ∧ marks.Perm (trace.map Action.mark ++ left)) ∧
        ∃ a h' t', Step initial h t a h' t' := by
  have hstart : (Task.running p).rest (.empty initial) v = .ok (v, marks) := hrun
  have howns := Task.owns_running (.empty initial) p
  obtain ⟨left, hrest, hperm⟩ := hsteps.rest howns hstart
  rcases Task.progress initial hrest with rfl | rfl | ⟨a, h', t', hstep⟩
  · cases hrest
    rw [List.append_nil] at hperm
    exact .inl ⟨rfl, hperm⟩
  · exact absurd rfl (hsteps.ne_finished nofun)
  · obtain ⟨marks', -, hperm'⟩ := hstep.rest (hsteps.owns howns) hrest
    refine .inr ⟨⟨left, ?_, hperm⟩, a, h', t', hstep⟩
    rintro rfl
    exact absurd hperm'.length_eq (Nat.succ_ne_zero _).symm

lemma perm_events {marks left : List (Mark E)} (hperm : marks.Perm (trace.map Action.mark ++ left)) :
    (marks.filterMap Mark.event?).Perm (events trace ++ left.filterMap Mark.event?) := by
  have hfilter := hperm.filterMap Mark.event?
  rwa [List.filterMap_append, List.filterMap_map] at hfilter

/-! ### The number of threads -/

/-- `n` threads are enough. -/
def Program.Width {A : Type} : Program S E R A → Nat → Prop
  | ret _, n => 1 ≤ n
  | halt _, n => 1 ≤ n
  | event _ rest, n => rest.Width n
  | fork left right join, n =>
    (∃ k m, k + m ≤ n ∧ left.Width k ∧ right.Width m) ∧ ∀ c d, (join c d).Width n

namespace Task

/-- The threads that run or wait. The thread that forks is the one of its left half. -/
def threads {A : Type} : Task S E R A → Nat
  | running _ => 1
  | waiting _ left right _ => max 1 left.threads + right.threads
  | finished => 0

def Width {A : Type} : Task S E R A → Nat → Prop
  | running p, n => p.Width n
  | waiting _ left right join, n =>
    (∃ k m, k + m ≤ n ∧ 1 ≤ k ∧ left.Width k ∧ right.Width m) ∧ ∀ c d, (join c d).Width n
  | finished, _ => True

end Task

lemma Program.Width.pos {A : Type} {p : Program S E R A} {n : Nat} (hp : p.Width n) : 1 ≤ n := by
  induction p generalizing n with
  | ret a => exact hp
  | halt s => exact hp
  | event e rest ih => exact ih hp
  | fork left right join ihleft _ _ =>
    obtain ⟨⟨k, m, hle, hleft, -⟩, -⟩ := hp
    have hk := ihleft hleft
    omega

lemma Program.Width.mono {A : Type} {p : Program S E R A} {n n' : Nat} (hp : p.Width n) (hle : n ≤ n') :
    p.Width n' := by
  induction p with
  | ret a => exact Nat.le_trans hp hle
  | halt s => exact Nat.le_trans hp hle
  | event e rest ih => exact ih hp
  | fork left right join _ _ ihjoin =>
    obtain ⟨⟨k, m, hkm, hleft, hright⟩, hjoin⟩ := hp
    exact ⟨⟨k, m, hkm.trans hle, hleft, hright⟩, fun c d => ihjoin c d (hjoin c d)⟩

lemma Program.Width.bind {A : Type} {p : Program S E R A} {f : A → Program S E R B} {n : Nat} (hp : p.Width n)
    (hf : ∀ a, (f a).Width n) : (p.bind f).Width n := by
  induction p with
  | ret a => exact hf a
  | halt s => exact hp
  | event e rest ih => exact ih hp hf
  | fork left right join _ _ ihjoin => exact ⟨hp.1, fun c d => ihjoin c d (hp.2 c d) hf⟩

lemma Program.width_serial (x : Except S (A × List E)) : (Program.serial x : Program S E R A).Width 1 := by
  rcases x with s | ⟨a, events⟩
  · exact le_refl 1
  · induction events with
    | nil => exact le_refl 1
    | cons e events ih => exact ih

lemma Task.Width.threads_le {A : Type} {t : Task S E R A} {n : Nat} (ht : t.Width n) : t.threads ≤ n := by
  induction t generalizing n with
  | running p => exact ht.pos
  | finished => exact Nat.zero_le n
  | waiting b left right join ihleft ihright =>
    obtain ⟨⟨k, m, hle, hpos, hleft, hright⟩, -⟩ := ht
    have hk := ihleft hleft
    have hm := ihright hright
    rw [Task.threads]
    omega

lemma Step.width (hstep : Step initial h t a h' t') {n : Nat} (ht : t.Width n) : t'.Width n := by
  induction hstep generalizing n with
  | event h e rest => exact ht
  | fork h left right join =>
    obtain ⟨⟨k, m, hle, hleft, hright⟩, hjoin⟩ := ht
    exact ⟨⟨k, m, hle, hleft.pos, hleft, hright⟩, hjoin⟩
  | left b right join hstep ih =>
    obtain ⟨⟨k, m, hle, hpos, hleft, hright⟩, hjoin⟩ := ht
    exact ⟨⟨k, m, hle, hpos, ih hleft, hright⟩, hjoin⟩
  | right b left join hstep ih =>
    obtain ⟨⟨k, m, hle, hpos, hleft, hright⟩, hjoin⟩ := ht
    exact ⟨⟨k, m, hle, hpos, hleft, ih hright⟩, hjoin⟩
  | writeLeft h b r right join =>
    obtain ⟨⟨k, m, hle, hpos, hleft, hright⟩, hjoin⟩ := ht
    exact ⟨⟨k, m, hle, hpos, trivial, hright⟩, hjoin⟩
  | writeRight h b r left join =>
    obtain ⟨⟨k, m, hle, hpos, hleft, hright⟩, hjoin⟩ := ht
    exact ⟨⟨k, m, hle, hpos, hleft, trivial⟩, hjoin⟩
  | join h b join => exact ht.2 _ _

/-- At no point of a run there are more threads than the program was given. -/
theorem Steps.threads_le {p : Program S E R A} {n : Nat} (hp : p.Width n)
    (hsteps : Steps initial (.empty initial) (.running p) trace h t) : t.threads ≤ n := by
  have hwidth : t.Width n := by
    induction hsteps with
    | refl => exact hp
    | snoc _ hstep ih => exact hstep.width ih
  exact hwidth.threads_le

end Sszpp.Library
