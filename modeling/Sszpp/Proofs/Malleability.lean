import Sszpp.Proofs.Canonical
import Sszpp.Proofs.Frames

/-!
# Serialization gives back only canonical inputs

If serializing a decoded object gives its input back, the offsets that the encoder wrote are those
that the decoder read. Each of them is the sum of the sizes before it, so every range has the size
of its object and is, by the same argument one level down, canonical itself.
-/

namespace Sszpp

open Library

variable {α : Type}

/-- Where the encoder of the item, in any buffer, writes `p` and reserves at least its length, it
reserves exactly that, and `C` holds. -/
def Settles (item : Item) (p : Bytes) (C : Prop) : Prop :=
  ∀ pos buf out, item.write pos buf = .ok out → (∀ j < p.length, out[pos + j]? = p[j]?) →
    p.length ≤ item.size → p.length = item.size ∧ C

/-- The items of variable size settle on the ranges in order. -/
def AllSettle : List (Item × (Bytes → Prop)) → List Bytes → Prop
  | [], _ => True
  | (item, C) :: items, ranges =>
    if item.isVariable then
      match ranges with
      | p :: ps => Settles item p (C p) ∧ AllSettle items ps
      | [] => False
    else AllSettle items ranges

def AllCanonical : List (Item × (Bytes → Prop)) → List Bytes → Prop
  | [], _ => True
  | (item, C) :: items, ranges =>
    if item.isVariable then
      match ranges with
      | p :: ps => C p ∧ AllCanonical items ps
      | [] => True
    else AllCanonical items ranges

/-- The offsets in the fixed part. -/
def slotWords : List Item → Bytes → List Nat
  | [], _ => []
  | item :: items, shifted =>
    if item.isVariable then leNat (shifted.take 4) :: slotWords items (shifted.drop 4)
    else slotWords items (shifted.drop item.size)

/-- The length of the part after the fixed one. -/
def variableTotal (items : List Item) : Nat :=
  (items.map fun item => if item.isVariable then item.size else 0).sum

@[simp] lemma variableTotal_nil : variableTotal [] = 0 := rfl

@[simp] lemma variableTotal_cons (item : Item) (items : List Item) :
    variableTotal (item :: items) = (if item.isVariable then item.size else 0) + variableTotal items := by
  simp [variableTotal]

lemma variableTotal_of_slotWords_nil {items : List Item} {shifted : Bytes}
    (h : slotWords items shifted = []) : variableTotal items = 0 := by
  induction items generalizing shifted with
  | nil => rfl
  | cons item items ih =>
    rw [slotWords] at h
    split at h
    · cases h
    · rename_i hvar
      rw [variableTotal_cons, if_neg hvar, ih h]

/-- The first offset in the output is the one written. -/
lemma slotWords_head {items : List Item} (hframes : ∀ item ∈ items, Frames item.write)
    {start result variablePos k : Nat} {buf out s : Bytes}
    (hrun : writeItems start result variablePos items buf = .ok out)
    (hslice : ∀ i < s.length, out[start + i]? = s[i]?) (hresult : result = start + k)
    (hhead : k + itemsHead items ≤ s.length) (hvariable : result + itemsHead items ≤ variablePos)
    {o : Nat} {os : List Nat} (hwords : slotWords items (s.drop k) = o :: os) :
    o = (variablePos - start) % 2 ^ 32 := by
  induction items generalizing result variablePos k buf with
  | nil => cases hwords
  | cons item items ih =>
    have hitem := hframes item (by simp)
    have hitems : ∀ item ∈ items, Frames item.write :=
      fun it hit => hframes it (List.mem_cons_of_mem _ hit)
    rw [writeItems] at hrun
    rw [itemsHead_cons] at hhead hvariable
    rw [slotWords] at hwords
    split at hrun
    · rename_i hvar
      rw [if_pos hvar] at hhead hvariable hwords
      obtain ⟨mid, hmid, hrun⟩ := Outcome.bind_eq_ok.mp hrun
      obtain ⟨mid', hmid', hrun⟩ := Outcome.bind_eq_ok.mp hrun
      have hword : (s.drop k).take 4 = leBytes 4 ((variablePos - start) % 2 ^ 32) := by
        apply List.ext_getElem?
        intro j
        by_cases hj : j < 4
        · have hindex : start + (k + j) = result + j := by omega
          rw [List.getElem?_take_of_lt hj, List.getElem?_drop, ← hslice (k + j) (by omega), hindex,
            (writeItems_frames hitems hrun).2 _ (by omega) (by omega),
            (hitem _ _ _ hmid').2 _ (by omega), (store_eq_ok hmid).2.2 j (by simpa using hj)]
        · rw [List.getElem?_eq_none (by simp; omega), List.getElem?_eq_none (by simp; omega)]
      have hlt : (variablePos - start) % 2 ^ 32 < 256 ^ 4 := Nat.mod_lt _ (by decide)
      rw [← (List.cons.inj hwords).1, hword, leNat_leBytes_of_lt hlt]
    · rename_i hvar
      rw [if_neg hvar] at hhead hvariable hwords
      obtain ⟨mid, hmid, hrun⟩ := Outcome.bind_eq_ok.mp hrun
      rw [List.drop_drop] at hwords
      exact ih hitems hrun (by omega) (by omega) (by omega) hwords

/-- An item settles on its range when the bytes are those of the output: no later item touches what it
wrote. -/
lemma Settles.of_output {item : Item} {items : List Item} {C : Prop} {p s buf mid out : Bytes}
    {start result variablePos o : Nat} (hsettle : Settles item p C)
    (hitems : ∀ item ∈ items, Frames item.write)
    (hbounded : ∀ item ∈ items, item.isVariable = false → Bounded item.size item.write)
    (hwrite : item.write variablePos buf = .ok mid)
    (hrun : writeItems start result (variablePos + item.size) items mid = .ok out)
    (hresult : result + itemsHead items ≤ variablePos) (hpos : variablePos = start + o)
    (hslice : ∀ i < s.length, out[start + i]? = s[i]?) (hp : ∀ j < p.length, s[o + j]? = p[j]?)
    (hend : o + p.length ≤ s.length) (hle : p.length ≤ item.size) : p.length = item.size ∧ C := by
  refine hsettle _ _ _ hwrite (fun j hj => ?_) hle
  have hindex : variablePos + j = start + (o + j) := by omega
  have houtput : out[variablePos + j]? = mid[variablePos + j]? :=
    writeItems_between hitems hbounded hrun (by omega) (by omega)
  rw [← houtput, hindex, hslice (o + j) (by omega), hp j hj]

/-- The argument along the items: `k` bytes of the fixed part are behind the first cursor, and the
second one stands where the next offset says. -/
lemma allCanonical_of_settle {items : List (Item × (Bytes → Prop))}
    (hframes : ∀ item ∈ items.map Prod.fst, Frames item.write)
    (hbounded : ∀ item ∈ items.map Prod.fst, item.isVariable = false → Bounded item.size item.write)
    {start result variablePos k : Nat} {buf out s : Bytes} {table : List Nat}
    (hrun : writeItems start result variablePos (items.map Prod.fst) buf = .ok out)
    (hslice : ∀ i < s.length, out[start + i]? = s[i]?) (hresult : result = start + k)
    (hhead : k + itemsHead (items.map Prod.fst) ≤ s.length)
    (hvariable : result + itemsHead (items.map Prod.fst) ≤ variablePos)
    (htable : slotWords (items.map Prod.fst) (s.drop k) = table)
    (hordered : OrderedTable s.length table)
    (hexact : ∀ o os, table = o :: os → variablePos = start + o ∧ o ≤ s.length)
    (hsettle : AllSettle items (rangesAt s table))
    (htotal : start + s.length ≤ variablePos + variableTotal (items.map Prod.fst)) :
    AllCanonical items (rangesAt s table) ∧
      (table ≠ [] → start + s.length = variablePos + variableTotal (items.map Prod.fst)) := by
  induction items generalizing result variablePos k buf table with
  | nil =>
    subst htable
    exact ⟨trivial, fun h => absurd rfl h⟩
  | cons checked items ih =>
    obtain ⟨item, C⟩ := checked
    simp only [List.map_cons, List.forall_mem_cons] at hframes hbounded hrun
    simp only [List.map_cons, itemsHead_cons, slotWords, variableTotal_cons, AllSettle,
      AllCanonical] at hhead hvariable htable hsettle htotal ⊢
    obtain ⟨hitem, hitems⟩ := hframes
    rw [writeItems] at hrun
    by_cases hvar : item.isVariable = true
    · simp only [hvar, if_true] at hhead hvariable htable hrun hsettle htotal ⊢
      obtain ⟨mid, hmid, hrun⟩ := Outcome.bind_eq_ok.mp hrun
      obtain ⟨mid', hmid', hrun⟩ := Outcome.bind_eq_ok.mp hrun
      rw [List.drop_drop] at htable
      obtain ⟨o, os, rfl⟩ : ∃ o os, table = o :: os := ⟨_, _, htable.symm⟩
      obtain ⟨hpos, hole⟩ := hexact o os rfl
      have hos := (List.cons.inj htable).2
      cases os with
      | nil =>
        have hzero := variableTotal_of_slotWords_nil hos
        simp only [rangesAt] at hsettle ⊢
        have hlen : (s.drop o).length = s.length - o := List.length_drop
        obtain ⟨hsize, hC⟩ := hsettle.1.of_output hitems hbounded.2 hmid' hrun (by omega) hpos hslice
          (fun j _ => List.getElem?_drop.symm) (by omega) (by omega)
        obtain ⟨hrest, -⟩ := ih hitems hbounded.2 hrun (by omega) (by omega) (by omega) hos trivial
          (fun _ _ h => by cases h) hsettle.2 (by omega)
        exact ⟨⟨hC, hrest⟩, fun _ => by omega⟩
      | cons o' os =>
        obtain ⟨hle, hlen', hordered⟩ := hordered
        have hnext := slotWords_head hitems hrun hslice (by omega) (by omega) (by omega) hos
        have hmod := Nat.mod_le (variablePos + item.size - start) (2 ^ 32)
        simp only [rangesAt] at hsettle ⊢
        have hlen : ((s.take o').drop o).length = o' - o := by
          rw [List.length_drop, List.length_take, Nat.min_eq_left hlen']
        have hsp : ∀ j < ((s.take o').drop o).length, s[o + j]? = ((s.take o').drop o)[j]? := by
          intro j hj
          rw [List.getElem?_drop, List.getElem?_take_of_lt (by omega)]
        obtain ⟨hsize, hC⟩ := hsettle.1.of_output hitems hbounded.2 hmid' hrun (by omega) hpos hslice
          hsp (by omega) (by omega)
        obtain ⟨hrest, heq⟩ := ih hitems hbounded.2 hrun (by omega) (by omega) (by omega) hos hordered
          (fun o'' os' h => by cases h; exact ⟨by omega, hlen'⟩) hsettle.2 (by omega)
        exact ⟨⟨hC, hrest⟩, fun _ => by have h := heq (by simp); omega⟩
    · simp only [hvar, Bool.false_eq_true, if_false] at hhead hvariable htable hrun hsettle htotal ⊢
      obtain ⟨mid, hmid, hrun⟩ := Outcome.bind_eq_ok.mp hrun
      rw [List.drop_drop] at htable
      obtain ⟨hrest, heq⟩ := ih hitems hbounded.2 hrun (by omega) (by omega) (by omega) htable
        hordered hexact hsettle (by omega)
      exact ⟨hrest, fun hne => by have h := heq hne; omega⟩

/-! ### Fixed-size objects stay in their bounds -/

lemma bounded_basicRange (layout : BasicLayout α) (vs : List α) :
    Bounded (vs.length * layout.sizeof) (fun pos buf => serializeBasicRange layout.toBytes pos vs buf) := by
  intro pos buf out h i hi
  simp only [serializeBasicRange] at h
  split at h
  · cases h
    rfl
  · have hlen := length_flatMap_const layout.toBytes vs fun v _ => layout.length_toBytes v
    exact (store_eq_ok h).2.1 i (.inr (by rw [hlen]; exact hi))

/-- The fixed sizes of the members. -/
def Members.fixedSizes {α : Type} : Members α → List Nat
  | .nil => []
  | .cons m ms => m.fixedSize :: ms.fixedSizes

lemma Members.sum_fixedSizes (ms : Members α) : ms.fixedSizes.sum = ms.fixedSize := by
  fun_induction Members.fixedSizes ms with
  | case1 => rfl
  | case2 _ _ m ms ih => rw [List.sum_cons, ih, Members.fixedSize]

mutual

theorem SszType.serializeInPlace_bounded : {α : Type} → (τ : SszType α) → τ.Plain →
    τ.isVariableSize = false → (v : α) → Bounded τ.fixedSize (τ.serializeInPlace v)
  | _, .basic b, _, _, v => by
    have hbound := bounded_store (b.toBytes v)
    rw [b.length_toBytes] at hbound
    exact hbound
  | _, .array e n, hplain, _, v => by
    obtain ⟨layout, hlayout⟩ := Option.isSome_iff_exists.mp hplain.2
    have hbound := bounded_basicRange layout v.1
    rw [v.2, SszType.basicLayout_fixedSize hlayout] at hbound
    intro pos buf out h
    simp only [SszType.serializeInPlace, serializeRange, hlayout] at h
    exact hbound pos buf out h
  | _, .vector _, hplain, _, _ => hplain.elim
  | _, .list _ _, _, hfix, _ => by cases hfix
  | _, .bitlist _, hplain, _, _ => hplain.elim
  | _, .bitset _, hplain, _, _ => hplain.elim
  | _, .container _ ms, hplain, hfix, v => by
    intro pos buf out h i hi
    have hcount : ¬ ms.count = 1 := by
      have hge := hplain.1
      omega
    simp only [SszType.serializeInPlace, if_neg hcount, Members.serializeMembers_eq_writeItems] at h
    rw [SszType.fixedSize, ← ms.sum_fixedSizes] at hi
    exact writeItems_bounded (ms.items_bounded hplain.2.2 hfix v) h hi

theorem Members.items_bounded : {α : Type} → (ms : Members α) → ms.Plain →
    ms.hasVariableSize = false → (v : α) →
    List.Forall₂ (fun item n => item.isVariable = false ∧ item.size ≤ n ∧ Bounded n item.write)
      (ms.items v) ms.fixedSizes
  | _, .nil, _, _, _ => .nil
  | _, .cons m ms, hplain, hfix, (v, vs) => by
    rw [Members.hasVariableSize, Bool.or_eq_false_iff] at hfix
    have hwf := (SszType.Plain.encodable hplain.1).wellFormed
    refine .cons ⟨?_, ?_, m.serializeInPlace_bounded hplain.1 hfix.1 v⟩
      (ms.items_bounded hplain.2 hfix.2 vs)
    · rw [← hfix.1]
      exact hwf.variableSize_eq
    · exact le_of_eq_of_le (m.size_eq_width hwf hfix.1 v) (m.width_le_fixedSize hwf hfix.1)

end

/-! ### The items of a container and of a list -/

/-- The members of a container, each with what is to be shown of its range. -/
def Members.checkedItems {α : Type} : Members α → α → List (Item × (Bytes → Prop))
  | .nil, _ => []
  | .cons m ms, (v, vs) =>
    (⟨m.variableSize, m.serializeInPlace v, m.size true v⟩, m.Canonical) :: ms.checkedItems vs

lemma Members.map_checkedItems : {α : Type} → (ms : Members α) → (v : α) →
    (ms.checkedItems v).map Prod.fst = ms.items v
  | _, .nil, _ => rfl
  | _, .cons m ms, (v, vs) => by
    rw [Members.checkedItems, List.map_cons, ms.map_checkedItems, Members.items]

section Members

variable {ms : Members α} {v : α}

lemma Members.slotWords_items : {α : Type} → (ms : Members α) → ms.WellFormed → (v : α) →
    (shifted : Bytes) → slotWords (ms.items v) shifted = ms.offsetWords shifted
  | _, .nil, _, _, _ => rfl
  | _, .cons m ms, hwf, (v, vs), shifted => by
    simp only [Members.items, slotWords, Members.offsetWords, hwf.1.variableSize_eq,
      ms.slotWords_items hwf.2]
    cases hvar : m.isVariableSize with
    | true => rfl
    | false => simp only [m.size_eq_width hwf.1 hvar]

lemma Members.itemsHead_items : {α : Type} → (ms : Members α) → ms.WellFormed → (v : α) →
    itemsHead (ms.items v) = ms.headLength
  | _, .nil, _, _ => rfl
  | _, .cons m ms, hwf, (v, vs) => by
    simp only [Members.items, itemsHead_cons, Members.headLength, hwf.1.variableSize_eq,
      ms.itemsHead_items hwf.2]
    cases hvar : m.isVariableSize with
    | true => rfl
    | false => simp only [m.size_eq_width hwf.1 hvar]

lemma Members.computeFixedLength_items : {α : Type} → (ms : Members α) → (v : α) →
    ms.computeFixedLength v = itemsHead (ms.items v) % 2 ^ 32
  | _, .nil, _ => rfl
  | _, .cons m ms, (v, vs) => by
    simp only [Members.items, itemsHead_cons, Members.computeFixedLength, sizeOrPlaceholder,
      ms.computeFixedLength_items, BYTES_PER_LENGTH_OFFSET]
    split <;> omega

lemma Members.computeTotalLength_items : {α : Type} → (ms : Members α) → (v : α) →
    ms.computeTotalLength v =
      (itemsHead (ms.items v) + variableTotal (ms.items v)) % 2 ^ 32
  | _, .nil, _ => rfl
  | _, .cons m ms, (v, vs) => by
    simp only [Members.items, itemsHead_cons, variableTotal_cons, Members.computeTotalLength,
      sizePlusPlaceholder, ms.computeTotalLength_items, BYTES_PER_LENGTH_OFFSET]
    split <;> omega

/-- A decoded member of fixed size is written within the bytes that its cursor passes. -/
lemma Members.bounded_of_decoded : {α : Type} → (ms : Members α) → ms.Plain → (shifted : Bytes) →
    (ranges : List Bytes) → (v : α) → ms.Decoded shifted ranges v →
    ∀ item ∈ ms.items v, item.isVariable = false → Bounded item.size item.write
  | _, .nil, _, _, _, _, _, _, hmem, _ => by cases hmem
  | _, .cons m ms, hplain, shifted, ranges, (v, vs), h, item, hmem, hfix => by
    have hwf := (SszType.Plain.encodable hplain.1).wellFormed
    simp only [Members.Decoded] at h
    cases hvar : m.isVariableSize with
    | true =>
      simp only [hvar, if_true] at h
      obtain ⟨-, p, ps, old, -, -, hms⟩ := h
      rcases List.mem_cons.mp hmem with rfl | hmem
      · rw [hwf.variableSize_eq, hvar] at hfix
        cases hfix
      · exact ms.bounded_of_decoded hplain.2 _ ps vs hms item hmem hfix
    | false =>
      simp only [hvar, Bool.false_eq_true, if_false] at h
      obtain ⟨⟨old, hm⟩, hms⟩ := h
      rcases List.mem_cons.mp hmem with rfl | hmem
      · obtain ⟨hwidth, -, -⟩ := SszType.encode_of_take_width hplain.1 hvar hm
        have hbound := m.serializeInPlace_bounded hplain.1 hvar v
        rw [← hwidth, ← m.size_eq_width hwf hvar v] at hbound
        exact hbound
      · exact ms.bounded_of_decoded hplain.2 _ ranges vs hms item hmem hfix

lemma Members.canonical_of_allCanonical : {α : Type} → (ms : Members α) → ms.WellFormed → (v : α) →
    (ranges : List Bytes) → AllCanonical (ms.checkedItems v) ranges → ms.Canonical ranges
  | _, .nil, _, _, _, _ => trivial
  | _, .cons m ms, hwf, (v, vs), ranges, h => by
    simp only [Members.checkedItems, AllCanonical, Members.Canonical, hwf.1.variableSize_eq] at h ⊢
    cases hvar : m.isVariableSize with
    | true =>
      simp only [hvar, if_true] at h ⊢
      cases ranges with
      | nil => trivial
      | cons p ps => exact ⟨h.1, ms.canonical_of_allCanonical hwf.2 vs ps h.2⟩
    | false =>
      simp only [hvar, Bool.false_eq_true, if_false] at h ⊢
      exact ms.canonical_of_allCanonical hwf.2 vs ranges h

end Members

/-- What is to be shown of a decoded object. -/
abbrev SszType.SettlesOn {α : Type} (τ : SszType α) (v : α) (s : Bytes) : Prop :=
  Settles ⟨τ.variableSize, τ.serializeInPlace v, τ.size true v⟩ s (τ.Canonical s)

/-- Containers, from the same of their members. -/
lemma Members.settles_container {variableSize : Bool}
    (hplain : (SszType.container variableSize ms).Plain) {s : Bytes} {v : α}
    (hordered : OrderedTable s.length (ms.offsetWords s))
    (hdecoded : ms.Decoded s (rangesAt s (ms.offsetWords s)) v)
    (hsettle : AllSettle (ms.checkedItems v) (rangesAt s (ms.offsetWords s))) :
    (SszType.container variableSize ms).SettlesOn v s := by
  intro pos buf out hrun hslice hle
  have hwf := (Members.Plain.encodable hplain.2.2).wellFormed
  have hcount : ¬ ms.count = 1 := by
    have hge := hplain.1
    omega
  have hhead := ms.headLength_le hplain.2.2 s _ v hdecoded
  have hitems := ms.itemsHead_items hwf v
  have hsize : (SszType.container variableSize ms).size true v =
      (ms.headLength + variableTotal (ms.items v)) % 2 ^ 32 := by
    rw [SszType.size, ms.computeTotalLength_items, hitems]
  simp only [hsize] at hle ⊢
  have hlt := Nat.mod_lt (ms.headLength + variableTotal (ms.items v)) (show 0 < 2 ^ 32 by decide)
  have hmod := Nat.mod_le (ms.headLength + variableTotal (ms.items v)) (2 ^ 32)
  simp only [SszType.serializeInPlace, if_neg hcount, Members.serializeMembers_eq_writeItems,
    ms.computeFixedLength_items, hitems, Nat.mod_eq_of_lt (show ms.headLength < 2 ^ 32 by omega)]
    at hrun
  have hframes := ms.items_frames v
  have hbounded := ms.bounded_of_decoded hplain.2.2 s _ v hdecoded
  have hwords := ms.slotWords_items hwf v s
  have hfirst : ∀ o os, ms.offsetWords s = o :: os → o = ms.headLength := by
    intro o os htable
    have hword := slotWords_head hframes hrun hslice (k := 0) rfl (by omega) (by omega)
      (by rw [List.drop_zero, hwords, htable])
    omega
  rw [← ms.map_checkedItems v] at hrun hframes hbounded hitems hwords
  obtain ⟨hall, htotal⟩ := allCanonical_of_settle hframes hbounded hrun hslice (k := 0) rfl
    (by omega) (by omega) (by rw [List.drop_zero, hwords]) hordered
    (fun o os htable => by have h := hfirst o os htable; omega) hsettle
    (by rw [ms.map_checkedItems]; omega)
  have hlength : s.length = ms.headLength + variableTotal (ms.items v) := by
    cases htable : ms.offsetWords s with
    | nil =>
      have hzero := variableTotal_of_slotWords_nil (hwords.trans htable)
      rw [ms.map_checkedItems] at hzero
      omega
    | cons o os =>
      have h := htotal (by simp [htable])
      rw [ms.map_checkedItems] at h
      omega
  refine ⟨by omega, by omega, ?_, ms.canonical_of_allCanonical hwf v _ hall⟩
  cases htable : ms.offsetWords s with
  | nil =>
    have hzero := variableTotal_of_slotWords_nil (hwords.trans htable)
    rw [ms.map_checkedItems] at hzero
    rw [List.headD_nil]
    omega
  | cons o os => exact hfirst o os htable

section Elements

variable {e : SszType α} {s : Bytes} {vs : List α}

/-- The elements of a list, each with what is to be shown of its range. -/
def SszType.checkedElements (e : SszType α) (vs : List α) : List (Item × (Bytes → Prop)) :=
  vs.map fun v => (⟨true, e.serializeInPlace v, e.size true v⟩, e.Canonical)

lemma SszType.map_checkedElements (e : SszType α) (vs : List α) :
    (e.checkedElements vs).map Prod.fst = elementItems e.serializeInPlace (e.size true) vs := by
  simp [checkedElements, elementItems]

lemma SszType.elementItems_frames (e : SszType α) (vs : List α) :
    ∀ item ∈ elementItems e.serializeInPlace (e.size true) vs, Frames item.write := by
  intro item hitem
  obtain ⟨v, -, rfl⟩ := List.mem_map.mp hitem
  exact e.serializeInPlace_frames v

lemma itemsHead_elementItems {serialize : α → Nat → Bytes → Outcome Bytes} {size : α → Nat} :
    itemsHead (elementItems serialize size vs) = vs.length * 4 := by
  induction vs with
  | nil => rfl
  | cons v vs ih =>
    rw [elementItems_cons, itemsHead_cons, if_pos rfl, List.length_cons, ih]
    omega

lemma slotWords_elementItems {serialize : α → Nat → Bytes → Outcome Bytes} {size : α → Nat} :
    slotWords (elementItems serialize size vs) s = words vs.length s := by
  induction vs generalizing s with
  | nil => rfl
  | cons v vs ih =>
    rw [elementItems_cons, slotWords, if_pos rfl, ih, List.length_cons, words]

lemma sizeOfVariable_elementItems {serialize : α → Nat → Bytes → Outcome Bytes} {size : α → Nat} :
    sizeOfVariable size vs = vs.length * 4 + variableTotal (elementItems serialize size vs) := by
  rw [sizeOfVariable_eq, variableTotal, elementItems, List.map_map]
  rfl

lemma SszType.allSettle_of_forall {ranges : List Bytes}
    (h : List.Forall₂ (fun p v => e.variableSize = true ∧ e.SettlesOn v p) ranges vs) :
    AllSettle (e.checkedElements vs) ranges := by
  induction h with
  | nil => trivial
  | cons hpv _ ih =>
    simp only [checkedElements, List.map_cons, AllSettle, if_true]
    exact ⟨hpv.2, ih⟩

lemma SszType.forall_of_allCanonical {ranges : List Bytes} (hlen : ranges.length = vs.length)
    (h : AllCanonical (e.checkedElements vs) ranges) : ∀ p ∈ ranges, e.Canonical p := by
  induction vs generalizing ranges with
  | nil =>
    rw [List.length_eq_zero_iff.mp hlen]
    simp
  | cons v vs ih =>
    cases ranges with
    | nil => cases hlen
    | cons p ps =>
      simp only [checkedElements, List.map_cons, AllCanonical, if_true] at h
      exact List.forall_mem_cons.mpr ⟨h.1, ih (by simpa using hlen) h.2⟩

/-- Lists of elements of variable size, from the same of their elements. -/
lemma SszType.settles_list {limit : Nat} (hplain : e.Plain) (hvar : e.isVariableSize = true)
    (hne : elementWords s ≠ []) (hlen : 4 * (elementWords s).length ≤ s.length)
    (hordered : OrderedTable s.length (elementWords s))
    (hall : List.Forall₂ (fun p v => e.SettlesOn v p) (rangesAt s (elementWords s)) vs) :
    (SszType.list e limit).SettlesOn vs s := by
  intro pos buf out hrun hslice hle
  have hclass := (SszType.Plain.encodable hplain).variableSize_eq.trans hvar
  have hbasic := SszType.basicLayout_of_variable hvar
  have hbit : e.isBitlist = false := by
    cases e with
    | bitlist limit => exact hplain.elim
    | _ => rfl
  have hcount : vs.length = (elementWords s).length := by
    rw [← hall.length_eq, length_rangesAt]
  have hsize : (SszType.list e limit).size true vs =
      vs.length * 4 + variableTotal (elementItems e.serializeInPlace (e.size true) vs) := by
    rw [← sizeOfVariable_elementItems, ← funext (SszType.size_early hbit)]
    simp only [SszType.size, sizeOfRange, hclass, if_true]
  simp only [hsize] at hle ⊢
  simp only [SszType.serializeInPlace, serializeRange, hbasic, hclass, if_true,
    serializeVariableRange, serializeVariableLoop_eq_writeItems, BYTES_PER_LENGTH_OFFSET,
    Nat.zero_mul, Nat.add_zero] at hrun
  have hframes := SszType.elementItems_frames e vs
  have hbounded : ∀ item ∈ elementItems e.serializeInPlace (e.size true) vs,
      item.isVariable = false → Bounded item.size item.write := by
    intro item hitem hfix
    obtain ⟨v, -, rfl⟩ := List.mem_map.mp hitem
    cases hfix
  have hhead : itemsHead (elementItems e.serializeInPlace (e.size true) vs) = vs.length * 4 :=
    itemsHead_elementItems
  have hwords : slotWords (elementItems e.serializeInPlace (e.size true) vs) s = elementWords s := by
    rw [slotWords_elementItems, hcount, elementWords, length_words]
  obtain ⟨o, os, htable⟩ := List.exists_cons_of_ne_nil hne
  -- the first offset is the one read for the number of elements
  have hword := elementWords_head htable
  have hfirst : vs.length = o / 4 := by rw [hcount, hword, elementWords, length_words]
  have hlt : o < 2 ^ 32 := lt_of_mem_words (by rw [← elementWords, htable]; simp)
  have hoffset := slotWords_head hframes hrun hslice (k := 0) rfl (by omega) (by omega)
    (by rw [List.drop_zero, hwords, htable])
  have hstart : o = vs.length * 4 := by omega
  have hsettle : AllSettle (e.checkedElements vs) (rangesAt s (elementWords s)) :=
    SszType.allSettle_of_forall (hall.imp fun p v h => ⟨hclass, h⟩)
  rw [← e.map_checkedElements] at hrun hframes hbounded hhead hwords
  obtain ⟨hcanonical, htotal⟩ := allCanonical_of_settle hframes hbounded hrun hslice (k := 0) rfl
    (by omega) (by omega) (by rw [List.drop_zero, hwords]) hordered
    (fun o' os' h => by
      rw [htable, List.cons.injEq] at h
      omega) hsettle
    (by rw [e.map_checkedElements]; omega)
  have hlength := htotal hne
  rw [e.map_checkedElements] at hlength
  refine ⟨by omega, fun _ => .inr ⟨by omega, ?_⟩⟩
  exact SszType.forall_of_allCanonical (by rw [length_rangesAt, hcount]) hcanonical

/-- A list of elements of fixed size has as many as its bytes hold. -/
lemma SszType.size_list_of_fixed {limit : Nat} (hplain : e.Plain) (hfix : e.isVariableSize = false)
    {r : List α} (h : (SszType.list e limit).deserialize s r = .ok vs) :
    s.length = (SszType.list e limit).size true vs := by
  have hwf := (SszType.Plain.encodable hplain).wellFormed
  rw [(SszType.deserialize_list_of_fixed hwf hfix h).2]
  simp only [SszType.size, sizeOfRange, hwf.variableSize_eq, hfix, Bool.false_eq_true, if_false]
  exact (sizeOfFixed_eq vs fun x _ => SszType.size_early_eq_width hwf hfix x).symm

end Elements

/-! ### The argument along the types -/

mutual

theorem SszType.settlesOn : {α : Type} → (τ : SszType α) → τ.Plain → (s : Bytes) → (r v : α) →
    τ.deserialize s r = .ok v → τ.SettlesOn v s
  | _, .basic b, _, s, _, v, h => by
    intro pos buf out _ _ hle
    have hlen := le_antisymm hle (b.deserialize_eq_ok h).1
    exact ⟨hlen, hlen⟩
  | _, .array e n, hplain, s, r, v, h => by
    intro pos buf out _ _ hle
    have hfix : (SszType.array e n).isVariableSize = false := (SszType.Plain.encodable hplain).2.1
    have hwf := (SszType.Plain.encodable hplain).wellFormed
    obtain ⟨hlen, -⟩ := SszType.encode_of_fixed _ hplain hfix s r v h
    have heq := (SszType.array e n).size_eq_width hwf hfix v
    have hexact : s.length = (SszType.array e n).width :=
      le_antisymm (le_of_le_of_eq hle heq)
        (le_trans ((SszType.array e n).width_le_fixedSize hwf hfix) hlen)
    exact ⟨hexact.trans heq.symm, hexact.trans (SszType.width_array hwf)⟩
  | _, .vector _, hplain, _, _, _, _ => hplain.elim
  | _, .list e limit, hplain, s, r, vs, h => by
    have hwf := (SszType.Plain.encodable hplain.2).wellFormed
    cases hvar : e.isVariableSize with
    | true =>
      rcases SszType.deserialize_list_of_variable hwf hvar h with ⟨rfl, rfl⟩ | ⟨hne, hlen, hordered, hall⟩
      · intro pos buf out _ _ _
        refine ⟨?_, fun _ => .inl rfl⟩
        simp only [SszType.size, sizeOfRange]
        split <;> rfl
      · exact SszType.settles_list hplain.2 hvar hne hlen hordered
          (hall.imp fun p x hx => e.settlesOn hplain.2 p e.vac x hx)
    | false =>
      intro pos buf out _ _ _
      refine ⟨SszType.size_list_of_fixed hplain.2 hvar h, fun hvar' => ?_⟩
      rw [hvar] at hvar'
      cases hvar'
  | _, .bitlist _, hplain, _, _, _, _ => hplain.elim
  | _, .bitset _, hplain, _, _, _, _ => hplain.elim
  | _, .container variableSize ms, hplain, s, r, v, h => by
    have hwf := (Members.Plain.encodable hplain.2.2).wellFormed
    obtain ⟨hordered, hdecoded⟩ := Members.deserializeContainer_eq_ok hwf h
    exact Members.settles_container hplain hordered hdecoded
      (ms.allSettle hplain.2.2 s _ v hdecoded)

theorem Members.allSettle : {α : Type} → (ms : Members α) → ms.Plain → (shifted : Bytes) →
    (ranges : List Bytes) → (v : α) → ms.Decoded shifted ranges v →
    AllSettle (ms.checkedItems v) ranges
  | _, .nil, _, _, _, _, _ => trivial
  | _, .cons m ms, hplain, shifted, ranges, (v, vs), h => by
    simp only [Members.Decoded, Members.checkedItems, AllSettle,
      (SszType.Plain.encodable hplain.1).variableSize_eq] at h ⊢
    cases hvar : m.isVariableSize with
    | true =>
      simp only [hvar, if_true] at h ⊢
      obtain ⟨-, p, ps, old, rfl, hp, hps⟩ := h
      have hsettle := m.settlesOn hplain.1 p old v hp
      simp only [SszType.SettlesOn, (SszType.Plain.encodable hplain.1).variableSize_eq, hvar] at hsettle
      exact ⟨hsettle, ms.allSettle hplain.2 _ ps vs hps⟩
    | false =>
      simp only [hvar, Bool.false_eq_true, if_false] at h ⊢
      exact ms.allSettle hplain.2 _ ranges vs h.2

end

/-! ### The returning encoder -/

end Sszpp
