import Mathlib.Data.List.Basic
import Mathlib.Data.List.GetD
import Mathlib.Tactic.Ring
import Mathlib.Tactic.Cases

/-!
# Traces of writes

A write assigns its cell or combines it with what the cell holds. A trace leaves in a cell a value
that does not depend on what the cell held when some write assigns it, and else the combination of
what it held with all that is written.
-/

namespace Sszpp.Library

/-- What a write does to its cell. -/
inductive Effect (β : Type)
  | assign (x : β)
  | combine (x : β)

variable {β : Type} (op : β → β → β)

namespace Effect

def on : Effect β → β → β
  | assign x, _ => x
  | combine x, old => op old x

def value : Effect β → β
  | assign x => x
  | combine x => x

/-- The effect leaves its own value. -/
def Admits : Effect β → β → Prop
  | assign _, _ => True
  | combine x, old => op old x = x

lemma on_eq_value_iff (f : Effect β) (old : β) : f.on op old = f.value ↔ f.Admits op old := by
  cases f with
  | assign x => exact iff_of_true rfl trivial
  | combine x => exact Iff.rfl

lemma on_neutral (f : Effect β) (e : β) [Std.LawfulIdentity op e] : f.on op e = f.value := by
  cases f with
  | assign x => rfl
  | combine x => exact Std.LawfulLeftIdentity.left_id x

end Effect

/-! ### One cell -/

/-- The effects on one cell, in order. -/
def settle (fs : List (Effect β)) (old : β) : β := fs.foldl (fun b f => f.on op b) old

lemma settle_append (fs gs : List (Effect β)) (old : β) :
    settle op (fs ++ gs) old = settle op gs (settle op fs old) := List.foldl_append

def IsAssigned (fs : List (Effect β)) : Prop := ∃ x, Effect.assign x ∈ fs

lemma settle_of_isAssigned {fs : List (Effect β)} (h : IsAssigned fs) (a b : β) :
    settle op fs a = settle op fs b := by
  induction fs generalizing a b with
  | nil => exact absurd h.choose_spec List.not_mem_nil
  | cons f fs ih =>
    cases f with
    | assign x => rfl
    | combine x =>
      obtain ⟨y, hy⟩ := h
      exact ih ⟨y, (List.mem_cons.mp hy).resolve_left nofun⟩ _ _

section Neutral

variable [Std.Associative op] (e : β) [Std.LawfulIdentity op e]

lemma settle_of_not_isAssigned {fs : List (Effect β)} (h : ¬ IsAssigned fs) (old : β) :
    settle op fs old = op old (settle op fs e) := by
  induction fs generalizing old with
  | nil => exact (Std.LawfulRightIdentity.right_id old).symm
  | cons f fs ih =>
    have hfs : ¬ IsAssigned fs := fun ⟨x, hx⟩ => h ⟨x, List.mem_cons_of_mem _ hx⟩
    cases f with
    | assign x => exact absurd ⟨x, List.mem_cons_self⟩ h
    | combine x =>
      have hneutral : op e x = x := Std.LawfulLeftIdentity.left_id x
      calc settle op fs (op old x) = op (op old x) (settle op fs e) := ih hfs _
        _ = op old (op x (settle op fs e)) := Std.Associative.assoc old x _
        _ = op old (settle op fs x) := by rw [← ih hfs x]
        _ = op old (settle op fs (op e x)) := by rw [hneutral]

/-- The effects leave what they leave in a new cell: some effect assigns it, or it holds nothing that is
not combined into it. -/
def SettlesAlike (fs : List (Effect β)) (old : β) : Prop :=
  IsAssigned fs ∨ op old (settle op fs e) = settle op fs e

lemma settle_eq_iff (fs : List (Effect β)) (old : β) :
    settle op fs old = settle op fs e ↔ SettlesAlike op e fs old := by
  by_cases h : IsAssigned fs
  · exact iff_of_true (settle_of_isAssigned op h old e) (Or.inl h)
  · rw [settle_of_not_isAssigned op e h old, SettlesAlike, or_iff_right h]

end Neutral

/-! ### Traces -/

/-- Writes with their positions, in order. -/
abbrev Trace (β : Type) := List (Nat × Effect β)

namespace Trace

def play (ws : Trace β) (buf : List β) : List β :=
  ws.foldl (fun buf w => buf.modify w.1 (w.2.on op)) buf

/-- The effects on cell `i`, in order. -/
def effectsAt (ws : Trace β) (i : Nat) : List (Effect β) := (ws.filter fun w => w.1 = i).map Prod.snd

def shift (k : Nat) (ws : Trace β) : Trace β := ws.map fun w => (k + w.1, w.2)

/-- One write a cell, from position 0 on. -/
def ofCells : List (Effect β) → Trace β
  | [] => []
  | f :: fs => (0, f) :: (ofCells fs).shift 1

variable (ws vs : Trace β) (i k : Nat)

@[simp] lemma length_play (buf : List β) : (play op ws buf).length = buf.length := by
  induction ws generalizing buf with
  | nil => rfl
  | cons w ws ih => exact (ih _).trans (List.length_modify _ _ _)

lemma play_append (buf : List β) : play op (ws ++ vs) buf = play op vs (play op ws buf) :=
  List.foldl_append

lemma effectsAt_cons (w : Nat × Effect β) :
    effectsAt (w :: ws) i = if w.1 = i then w.2 :: effectsAt ws i else effectsAt ws i := by
  unfold effectsAt
  by_cases h : w.1 = i
  · rw [List.filter_cons_of_pos (by simpa using h), if_pos h, List.map_cons]
  · rw [List.filter_cons_of_neg (by simpa using h), if_neg h]

lemma effectsAt_append : effectsAt (ws ++ vs) i = effectsAt ws i ++ effectsAt vs i := by
  simp [effectsAt]

/-- A trace does to each cell what its writes at that cell do. -/
lemma getElem?_play (buf : List β) :
    (play op ws buf)[i]? = buf[i]?.map (settle op (effectsAt ws i)) := by
  induction ws generalizing buf with
  | nil => exact Option.map_id'.symm
  | cons w ws ih =>
    have hstep : play op (w :: ws) buf = play op ws (buf.modify w.1 (w.2.on op)) := rfl
    rw [hstep, ih, List.getElem?_modify, effectsAt_cons]
    by_cases h : w.1 = i
    · simp only [h, if_true]
      cases buf[i]? <;> rfl
    · simp only [h, if_false]
      cases buf[i]? <;> rfl

lemma shift_append : (ws ++ vs).shift k = ws.shift k ++ vs.shift k := List.map_append

lemma shift_shift (j : Nat) : (ws.shift j).shift k = ws.shift (k + j) := by
  simp [shift, Nat.add_assoc]

lemma effectsAt_shift : effectsAt (ws.shift k) i = if k ≤ i then effectsAt ws (i - k) else [] := by
  induction ws with
  | nil =>
    split
    · rfl
    · rfl
  | cons w ws ih =>
    have hstep : shift k (w :: ws) = (k + w.1, w.2) :: shift k ws := rfl
    rw [hstep, effectsAt_cons, ih, effectsAt_cons]
    by_cases hle : k ≤ i
    · have hiff : k + w.1 = i ↔ w.1 = i - k := by omega
      simp only [hle, hiff, if_true]
    · have hne : ¬ k + w.1 = i := by omega
      simp only [hle, hne, if_false]

lemma effectsAt_ofCells (fs : List (Effect β)) : effectsAt (ofCells fs) i = fs[i]?.toList := by
  induction fs generalizing i with
  | nil => rfl
  | cons f fs ih =>
    rw [ofCells, effectsAt_cons, effectsAt_shift, ih]
    cases i with
    | zero => rfl
    | succ i => simp

lemma shift_zero : ws.shift 0 = ws := by
  simp [shift]

lemma ofCells_append (fs gs : List (Effect β)) :
    ofCells (fs ++ gs) = ofCells fs ++ (ofCells gs).shift fs.length := by
  induction fs with
  | nil => exact (shift_zero _).symm
  | cons f fs ih =>
    rw [List.cons_append, ofCells, ih, shift_append, shift_shift, List.length_cons, Nat.add_comm 1]
    rfl

lemma lt_of_mem_ofCells {fs : List (Effect β)} {w : Nat × Effect β} (h : w ∈ ofCells fs) :
    w.1 < fs.length := by
  induction fs generalizing w with
  | nil => cases h
  | cons f fs ih =>
    rcases List.mem_cons.mp h with rfl | hmem
    · exact Nat.succ_pos _
    · obtain ⟨v, hv, rfl⟩ := List.mem_map.mp hmem
      have hlt := ih hv
      rw [List.length_cons]
      omega

/-- Cells that are assigned. -/
def assigns (xs : List β) : Trace β := ofCells (xs.map Effect.assign)

lemma play_assigns {xs buf : List β} (h : buf.length = xs.length) : play op (assigns xs) buf = xs := by
  apply List.ext_getElem?
  intro i
  rw [getElem?_play, assigns, effectsAt_ofCells, List.getElem?_map]
  rcases Nat.lt_or_ge i xs.length with hi | hi
  · rw [List.getElem?_eq_getElem hi, List.getElem?_eq_getElem (by omega)]
    rfl
  · rw [List.getElem?_eq_none hi, List.getElem?_eq_none (by omega)]
    rfl

section Neutral

variable [Std.Associative op] (e : β) [Std.LawfulIdentity op e]

/-- A trace leaves in a buffer what it leaves in a new one. -/
lemma play_eq_iff (buf : List β) :
    play op ws buf = play op ws (List.replicate buf.length e) ↔
      ∀ i < buf.length, SettlesAlike op e (effectsAt ws i) (buf.getD i e) := by
  have hcell : ∀ i < buf.length, ((play op ws buf)[i]? =
      (play op ws (List.replicate buf.length e))[i]? ↔
        SettlesAlike op e (effectsAt ws i) (buf.getD i e)) := by
    intro i hi
    rw [getElem?_play, getElem?_play, List.getElem?_eq_getElem hi, List.getElem?_replicate_of_lt hi,
      List.getD_eq_getElem _ _ hi, Option.map_some, Option.map_some, Option.some_inj, settle_eq_iff]
  constructor
  · intro h i hi
    exact (hcell i hi).mp (by rw [h])
  · intro h
    apply List.ext_getElem?
    intro i
    rcases Nat.lt_or_ge i buf.length with hi | hi
    · exact (hcell i hi).mpr (h i hi)
    · rw [List.getElem?_eq_none (by simpa using hi), List.getElem?_eq_none (by simpa using hi)]

end Neutral

lemma modify_append_left {mid : List β} {j : Nat} (hj : j < mid.length) (post : List β) (f : β → β) :
    (mid ++ post).modify j f = mid.modify j f ++ post := by
  induction mid generalizing j with
  | nil => cases hj
  | cons a mid ih =>
    cases j with
    | zero => simp
    | succ j => simpa using ih (Nat.lt_of_succ_lt_succ hj)

lemma modify_append (pre : List β) {mid : List β} {j : Nat} (hj : j < mid.length) (post : List β)
    (f : β → β) : (pre ++ mid ++ post).modify (pre.length + j) f = pre ++ mid.modify j f ++ post := by
  induction pre with
  | nil => simpa using modify_append_left hj post f
  | cons a pre ih =>
    have hlen : (a :: pre).length + j = pre.length + j + 1 := by
      rw [List.length_cons]
      omega
    rw [hlen, List.cons_append, List.cons_append, List.modify_succ_cons, ih]
    rfl

/-- Writes inside a range leave the rest of the buffer as it was. -/
lemma play_shift_append {mid : List β} (hws : ∀ w ∈ ws, w.1 < mid.length) (pre post : List β) :
    play op (ws.shift pre.length) (pre ++ mid ++ post) = pre ++ play op ws mid ++ post := by
  induction ws generalizing mid with
  | nil => rfl
  | cons w ws ih =>
    have hstep : play op (shift pre.length (w :: ws)) (pre ++ mid ++ post) =
        play op (shift pre.length ws) ((pre ++ mid ++ post).modify (pre.length + w.1) (w.2.on op)) := rfl
    rw [hstep, modify_append pre (hws w List.mem_cons_self)]
    apply ih
    intro w' hw'
    rw [List.length_modify]
    exact hws w' (List.mem_cons_of_mem _ hw')

/-! ### One effect a cell -/

/-- The effects of cells that begin at position `k`, on cell `i`. -/
def placed (k : Nat) (fs : List (Effect β)) (i : Nat) (old : β) : β :=
  if k ≤ i then fs[i - k]?.elim old fun f => f.on op old else old

lemma placed_of_lt {k i : Nat} (h : i < k) (fs : List (Effect β)) (old : β) :
    placed op k fs i old = old := if_neg (by omega)

lemma placed_of_le {k i : Nat} {fs : List (Effect β)} (h : k + fs.length ≤ i) (old : β) :
    placed op k fs i old = old := by
  rw [placed, if_pos (by omega), List.getElem?_eq_none (by omega)]
  rfl

lemma placed_nil (k i : Nat) (old : β) : placed op k [] i old = old := by
  unfold placed
  split <;> rfl

lemma placed_append (k i : Nat) (fs gs : List (Effect β)) (old : β) :
    placed op k (fs ++ gs) i old = placed op (k + fs.length) gs i (placed op k fs i old) := by
  rcases Nat.lt_or_ge i (k + fs.length) with hi | hi
  · rw [placed_of_lt op hi]
    unfold placed
    split
    · rw [List.getElem?_append_left (by omega)]
    · rfl
  · have hsub : i - k - fs.length = i - (k + fs.length) := by omega
    rw [placed_of_le op hi, placed, placed, if_pos (by omega), if_pos hi,
      List.getElem?_append_right (by omega), hsub]

/-- Cells of two ranges. -/
lemma placed_comm {k l : Nat} {fs : List (Effect β)} (h : k + fs.length ≤ l) (gs : List (Effect β)) (i : Nat)
    (old : β) : placed op l gs i (placed op k fs i old) = placed op k fs i (placed op l gs i old) := by
  rcases Nat.lt_or_ge i l with hi | hi
  · rw [placed_of_lt op hi, placed_of_lt op hi]
  · have hend : k + fs.length ≤ i := by omega
    rw [placed_of_le op hend, placed_of_le op hend]

/-- The trace does to the cells what the effects say, one for each. -/
def Lays (ws : Trace β) (fs : List (Effect β)) : Prop :=
  ∀ i old, settle op (effectsAt ws i) old = placed op 0 fs i old

lemma lays_ofCells (fs : List (Effect β)) : Lays op (ofCells fs) fs := by
  intro i old
  rw [effectsAt_ofCells, placed, if_pos (Nat.zero_le i), Nat.sub_zero]
  cases fs[i]? <;> rfl

lemma lays_assigns (xs : List β) : Lays op (assigns xs) (xs.map Effect.assign) := lays_ofCells op _

lemma zipWith_assign {xs buf : List β} (h : buf.length = xs.length) :
    List.zipWith (Effect.on op) (xs.map Effect.assign) buf = xs := by
  induction xs generalizing buf with
  | nil => rfl
  | cons x xs ih =>
    cases buf with
    | nil => cases h
    | cons b buf => exact congrArg (x :: ·) (ih (Nat.succ.inj h))

lemma effectsAt_of_le {n : Nat} (h : ∀ w ∈ ws, w.1 < n) (hi : n ≤ i) : effectsAt ws i = [] := by
  rw [effectsAt, List.filter_eq_nil_iff.mpr, List.map_nil]
  intro w hw
  have hlt := h w hw
  rw [decide_eq_true_eq]
  omega

/-- From what the trace does to buffers of one length. -/
lemma lays_of_play {fs : List (Effect β)} (hws : ∀ w ∈ ws, w.1 < fs.length)
    (h : ∀ buf, buf.length = fs.length → play op ws buf = List.zipWith (Effect.on op) fs buf) :
    Lays op ws fs := by
  intro i old
  rcases Nat.lt_or_ge i fs.length with hi | hi
  · have hcell := getElem?_play op ws i (List.replicate fs.length old)
    rw [h _ List.length_replicate, List.getElem?_zipWith, List.getElem?_replicate_of_lt hi,
      List.getElem?_eq_getElem hi] at hcell
    rw [placed, if_pos (Nat.zero_le _), Nat.sub_zero, List.getElem?_eq_getElem hi]
    exact (Option.some.inj hcell).symm
  · rw [effectsAt_of_le _ _ hws hi, placed_of_le op (by omega)]
    rfl

section Lays

variable {op} {ws} {fs : List (Effect β)} (h : Lays op ws fs)
include h

lemma Lays.shift (k i : Nat) (old : β) :
    settle op (effectsAt (ws.shift k) i) old = placed op k fs i old := by
  rw [effectsAt_shift]
  split
  · rename_i hle
    rw [h, placed, placed, if_pos (Nat.zero_le _), if_pos hle, Nat.sub_zero]
  · rename_i hlt
    rw [placed_of_lt op (by omega)]
    rfl

lemma Lays.settle_of_lt {i : Nat} (hi : i < fs.length) (old : β) :
    settle op (effectsAt ws i) old = fs[i].on op old := by
  rw [h, placed, if_pos (Nat.zero_le _), Nat.sub_zero, List.getElem?_eq_getElem hi]
  rfl

variable {e : β} [Std.LawfulIdentity op e]

/-- In a new buffer the trace leaves the values of the effects. -/
lemma Lays.play_replicate : play op ws (List.replicate fs.length e) = fs.map Effect.value := by
  apply List.ext_getElem?
  intro i
  rcases Nat.lt_or_ge i fs.length with hi | hi
  · rw [getElem?_play, List.getElem?_replicate_of_lt hi, Option.map_some, h.settle_of_lt hi,
      Effect.on_neutral op _ e, List.getElem?_map, List.getElem?_eq_getElem hi, Option.map_some]
  · rw [List.getElem?_eq_none (by simpa using hi), List.getElem?_eq_none (by simpa using hi)]

lemma Lays.settlesAlike_iff [Std.Associative op] {i : Nat} (hi : i < fs.length) (old : β) :
    SettlesAlike op e (effectsAt ws i) old ↔ fs[i].Admits op old := by
  rw [← settle_eq_iff, h.settle_of_lt hi, h.settle_of_lt hi, Effect.on_neutral op _ e,
    Effect.on_eq_value_iff]

end Lays

end Trace

end Sszpp.Library
