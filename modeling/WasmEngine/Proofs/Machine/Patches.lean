import WasmEngine.Proofs.Machine.StoreExtension

/-!
# Patches

A segment that is written changes a range of slots of one table, or of bytes of one memory, and nothing else of a
store.  It is written as a whole or not at all (`Patch.write_cases`).
-/

namespace WasmEngine

namespace Table

/-- Slots that are filled, and those around them. -/
theorem getElem?_fill {t t' : Table} {offset : Nat} {funcs : List Nat} (filled : t.fill offset funcs = .ok t') :
    offset + funcs.length ≤ t.size ∧ t'.limits = t.limits ∧ ∀ k, t'.slots[k]? =
      if offset ≤ k ∧ k < offset + funcs.length then funcs[k - offset]?.map some else t.slots[k]? := by
  rw [fill] at filled
  split_ifs at filled with fits
  cases filled
  refine ⟨fits, rfl, fun k => ?_⟩
  have prior : (t.slots.take offset).length = offset := by
    rw [List.length_take]
    exact Nat.min_eq_left (Nat.le_trans (Nat.le_add_right _ _) fits)
  have front : (t.slots.take offset ++ funcs.map some).length = offset + funcs.length := by
    rw [List.length_append, prior, List.length_map]
  by_cases before : k < offset
  · rw [if_neg (by omega), List.getElem?_append_left (by omega), List.getElem?_append_left (by omega),
      List.getElem?_take_of_lt before]
  · by_cases within : k < offset + funcs.length
    · rw [if_pos ⟨by omega, within⟩, List.getElem?_append_left (by omega),
        List.getElem?_append_right (by omega), prior, List.getElem?_map]
    · rw [if_neg (by omega), List.getElem?_append_right (by omega), front, List.getElem?_drop]
      congr 1
      omega

end Table

namespace Memory

/-- Setting a byte leaves the size of a memory. -/
theorem size_setByte (m : Memory) (a : Nat) (b : UInt8) : (m.setByte a b).size = m.size := by
  rw [size, size, pages_setByte]

/-- Setting a byte changes that address only, and only inside the memory. -/
theorem byte?_setByte (m : Memory) (a k : Nat) (b : UInt8) :
    (m.setByte a b).byte? k = if k = a ∧ k < m.size then some b else m.byte? k := by
  have split : k = a ↔ a / pageSize = k / pageSize ∧ a % pageSize = k % pageSize := by
    constructor
    · rintro rfl
      exact ⟨rfl, rfl⟩
    · rintro ⟨quotient, remainder⟩
      rw [← Nat.div_add_mod k pageSize, ← quotient, ← remainder, Nat.div_add_mod]
  have inside : k % pageSize < pageSize := Nat.mod_lt _ (by decide)
  have bound : k < m.size ↔ k / pageSize < m.content.size := by
    rw [size, pages, Nat.div_lt_iff_lt_mul (by decide)]
  unfold byte? setByte
  dsimp only
  rw [Array.getElem?_modify]
  by_cases page : a / pageSize = k / pageSize
  · rw [if_pos page]
    cases here : m.content[k / pageSize]? with
    | none =>
      have outside : ¬ k < m.size := by
        rw [bound, Nat.not_lt]
        exact Array.getElem?_eq_none_iff.1 here
      rw [if_neg fun both => outside both.2]
      rfl
    | some bytes =>
      have within : k < m.size := bound.2 (Array.getElem?_eq_some_iff.1 here).1
      rw [Option.map_some, Option.bind_some, Option.bind_some, Vector.getElem?_setIfInBounds]
      by_cases place : a % pageSize = k % pageSize
      · rw [if_pos place, if_pos (place ▸ inside), if_pos ⟨split.2 ⟨page, place⟩, within⟩]
      · rw [if_neg place, if_neg fun both => place (split.1 both.1).2]
  · rw [if_neg page, if_neg fun both => page (split.1 both.1).1]

/-- Bytes that are put, and those around them. -/
theorem byte?_put (m : Memory) (a : Nat) (bytes : List UInt8) (fits : a + bytes.length ≤ m.size) (k : Nat) :
    (m.put a bytes).byte? k =
      if a ≤ k ∧ k < a + bytes.length then bytes[k - a]? else m.byte? k := by
  induction bytes generalizing m a with
  | nil => rw [put, if_neg (by rw [List.length_nil]; omega)]
  | cons b bytes ih =>
    rw [List.length_cons] at fits ⊢
    rw [put, ih _ _ (by rw [size_setByte]; omega), byte?_setByte]
    by_cases here : k = a
    · subst here
      rw [if_neg (by omega), if_pos ⟨rfl, by omega⟩, if_pos ⟨Nat.le_refl _, by omega⟩, Nat.sub_self]
      rfl
    · by_cases within : a < k ∧ k < a + (bytes.length + 1)
      · rw [if_pos ⟨by omega, by omega⟩, if_pos ⟨by omega, by omega⟩]
        obtain ⟨n, rfl⟩ : ∃ n, k = a + 1 + n := ⟨k - (a + 1), by omega⟩
        rw [Nat.add_sub_cancel_left, Nat.add_assoc, Nat.add_sub_cancel_left, Nat.add_comm 1 n]
        rfl
      · rw [if_neg (by omega), if_neg (by tauto), if_neg (by omega)]

end Memory

/-- A store has another entry at one address than the store before it, and no more is different. -/
structure Store.Replaced (a : Nat) (entry : StoreEntry) (s s' : Store) : Prop where
  here : s'.get? a = some entry
  others : ∀ b, b ≠ a → s'.get? b = s.get? b
  size : s'.size = s.size
  instances : s'.instances = s.instances

/-- Writing a known address replaces its entry and no other. -/
theorem Store.replaced_put {s : Store} {a : Nat} (known : a < s.size) (entry : StoreEntry) :
    s.Replaced a entry (s.put a entry) where
  here := by rw [get?_put known, if_pos rfl]
  others b other := by rw [get?_put known, if_neg other]
  size := size_put s a entry
  instances := rfl

/-- A range of slots of a table, or of bytes of a memory, and what comes there. -/
inductive Patch where
  | slots (table offset : Nat) (funcs : List Nat)
  | bytes (memory offset : Nat) (content : List UInt8)

namespace Patch

/-- Writes a patch. -/
def write : Patch → StoreM Unit
  | slots table offset funcs => Store.fillTable table offset funcs
  | bytes memory offset content => Store.writeMemory memory offset content

/-- The range lies in the table or memory, and the second store is the first with the patch in this range. -/
def Applied (s s' : Store) : Patch → Prop
  | slots a offset funcs => ∃ t t', s.table a = .ok t ∧ offset + funcs.length ≤ t.size ∧
      s.Replaced a (.table t') s' ∧ t'.limits = t.limits ∧ ∀ k, t'.slots[k]? =
        if offset ≤ k ∧ k < offset + funcs.length then funcs[k - offset]?.map some else t.slots[k]?
  | bytes a offset content => ∃ m m', s.memory a = .ok m ∧ offset + content.length ≤ m.size ∧
      s.Replaced a (.memory m') s' ∧ m'.max = m.max ∧ m'.pages = m.pages ∧ ∀ k, m'.byte? k =
        if offset ≤ k ∧ k < offset + content.length then content[k - offset]? else m.byte? k

/-- Why a patch is refused: there is no such table or memory, or the range does not lie in it. -/
def Misfits (s : Store) (e : Fault) : Patch → Prop
  | slots a offset funcs => s.table a = .error e ∨
      ∃ t, s.table a = .ok t ∧ t.size < offset + funcs.length ∧ e = .size .elementsDoNotFit
  | bytes a offset content => s.memory a = .error e ∨
      ∃ m, s.memory a = .ok m ∧ m.size < offset + content.length ∧ e = .trap .outOfBounds

/-- A patch is written as a whole, or nothing of it is. -/
theorem write_cases (patch : Patch) (s : Store) :
    (∃ s', patch.write s = .ok () s' ∧ patch.Applied s s') ∨
      ∃ e, patch.write s = .error e s ∧ patch.Misfits s e := by
  cases patch with
  | slots a offset funcs =>
    rw [write, Store.fillTable_eq]
    cases here : s.table a with
    | error e => exact .inr ⟨e, rfl, .inl here⟩
    | ok t =>
      dsimp only
      cases filled : t.fill offset funcs with
      | ok t' =>
        obtain ⟨fits, limits, slots⟩ := Table.getElem?_fill filled
        have known := Store.lt_size_of_get? (Store.table_eq_ok.1 here)
        exact .inl ⟨_, rfl, t, t', here, fits, Store.replaced_put known _, limits, slots⟩
      | error e =>
        refine .inr ⟨e, rfl, .inr ⟨t, here, ?_⟩⟩
        rw [Table.fill] at filled
        split_ifs at filled with fits
        cases filled
        exact ⟨Nat.lt_of_not_le fits, rfl⟩
  | bytes a offset content =>
    rw [write, Store.writeMemory_eq]
    cases here : s.memory a with
    | error e => exact .inr ⟨e, rfl, .inl here⟩
    | ok m =>
      dsimp only
      split_ifs with fits
      · have known := Store.lt_size_of_get? (Store.memory_eq_ok.1 here)
        have fits' : offset + content.length ≤ m.size := of_decide_eq_true fits
        exact .inl ⟨_, rfl, m, m.put offset content, here, fits', Store.replaced_put known _,
          m.max_put offset content, m.pages_put offset content, m.byte?_put offset content fits'⟩
      · have misfits : ¬ offset + content.length ≤ m.size := fun fits' => fits (decide_eq_true fits')
        exact .inr ⟨_, rfl, .inr ⟨m, here, Nat.lt_of_not_le misfits, rfl⟩⟩

end Patch

/-- Patches lead from a store to another one, each applied to what those before it leave. -/
inductive Store.Patched : List Patch → Store → Store → Prop
  | nil (s : Store) : Patched [] s s
  | cons {patch : Patch} {patches : List Patch} {s t s' : Store} (applied : patch.Applied s t)
      (rest : Patched patches t s') : Patched (patch :: patches) s s'

/-- What a store holds besides tables and memories is the same in another store. -/
structure Store.Rewritten (s s' : Store) : Prop where
  entries : ∀ a, s'.get? a = s.get? a ∨ (∃ t t', s.get? a = some (.table t) ∧ s'.get? a = some (.table t')) ∨
    ∃ m m', s.get? a = some (.memory m) ∧ s'.get? a = some (.memory m')
  size : s'.size = s.size
  instances : s'.instances = s.instances

namespace Store.Rewritten

variable {s s' t : Store}

theorem refl (s : Store) : s.Rewritten s := ⟨fun _ => .inl rfl, rfl, rfl⟩

theorem trans (first : s.Rewritten t) (second : t.Rewritten s') : s.Rewritten s' := by
  refine ⟨fun a => ?_, second.size.trans first.size, second.instances.trans first.instances⟩
  obtain same | ⟨u, u', here, there⟩ | ⟨u, u', here, there⟩ := first.entries a
  · rw [← same]
    exact second.entries a
  · obtain same | ⟨v, v', here', there'⟩ | ⟨v, v', here', -⟩ := second.entries a
    · exact .inr (.inl ⟨u, u', here, same.trans there⟩)
    · exact .inr (.inl ⟨u, v', here, there'⟩)
    · cases there.symm.trans here'
  · obtain same | ⟨v, v', here', -⟩ | ⟨v, v', here', there'⟩ := second.entries a
    · exact .inr (.inr ⟨u, u', here, same.trans there⟩)
    · cases there.symm.trans here'
    · exact .inr (.inr ⟨u, v', here, there'⟩)

/-- Rewriting tables and memories leaves globals as they are. -/
theorem global (rewritten : s.Rewritten s') (a : Nat) : s'.global a = s.global a := by
  unfold Store.global
  obtain same | ⟨_, _, here, there⟩ | ⟨_, _, here, there⟩ := rewritten.entries a
  · rw [same]
  · rw [here, there]
  · rw [here, there]

/-- A patch rewrites tables and memories only. -/
theorem of_applied {patch : Patch} (applied : patch.Applied s s') : s.Rewritten s' := by
  cases patch with
  | slots a offset funcs =>
    obtain ⟨t, t', here, -, replaced, -⟩ := applied
    refine ⟨fun b => ?_, replaced.size, replaced.instances⟩
    by_cases same : b = a
    · subst same
      exact .inr (.inl ⟨t, t', Store.table_eq_ok.1 here, replaced.here⟩)
    · exact .inl (replaced.others b same)
  | bytes a offset content =>
    obtain ⟨m, m', here, -, replaced, -⟩ := applied
    refine ⟨fun b => ?_, replaced.size, replaced.instances⟩
    by_cases same : b = a
    · subst same
      exact .inr (.inr ⟨m, m', Store.memory_eq_ok.1 here, replaced.here⟩)
    · exact .inl (replaced.others b same)

/-- A sequence of patches rewrites tables and memories only. -/
theorem of_patched {patches : List Patch} (patched : Store.Patched patches s s') : s.Rewritten s' := by
  induction patched with
  | nil s => exact refl s
  | cons applied rest ih => exact (of_applied applied).trans ih

end Store.Rewritten

end WasmEngine
