import Mathlib.Tactic.Common
import WasmEngine.Machine.Store
import WasmEngine.Proofs.Outcome

/-!
# What stays in a store

A store is only ever changed by a handful of operations (`Store.Changes`): entries get new addresses, globals
are assigned, memories grow and are written, tables are filled, and instances are added and set up.  None of
these takes an entry away or changes what others may know of it (`Store.Extends`), and one that fails leaves
the store as it is.
-/

namespace WasmEngine

namespace Store

variable {s s' : Store} {a b : Nat} {e : Fault}

theorem func_eq_ok {f : FuncInstance} : s.func a = .ok f ↔ s.get? a = some (.func f) := by
  unfold Store.func
  split <;> simp_all

theorem global_eq_ok {g : GlobalInstance} : s.global a = .ok g ↔ s.get? a = some (.global g) := by
  unfold Store.global
  split <;> simp_all

theorem memory_eq_ok {m : Memory} : s.memory a = .ok m ↔ s.get? a = some (.memory m) := by
  unfold Store.memory
  split <;> simp_all

theorem table_eq_ok {t : Table} : s.table a = .ok t ↔ s.get? a = some (.table t) := by
  unfold Store.table
  split <;> simp_all

/-- The store with another entry at an address. -/
def put (s : Store) (a : Nat) (entry : StoreEntry) : Store :=
  { s with entries := s.entries.setIfInBounds a (some entry) }

/-- Known addresses are below the size of a store. -/
theorem lt_size_of_get? {entry : StoreEntry} (here : s.get? a = some entry) : a < s.size := by
  simp only [Store.get?, Option.bind_eq_some_iff] at here
  obtain ⟨_, found, -⟩ := here
  exact (Array.getElem?_eq_some_iff.1 found).1

/-- Writing a known address changes what it holds and no other address. -/
theorem get?_put {entry : StoreEntry} (known : a < s.size) :
    (s.put a entry).get? b = if b = a then some entry else s.get? b := by
  by_cases same : b = a
  · subst same
    have here : b < s.entries.size := known
    simp [Store.put, Store.get?, here]
  · simp [Store.put, Store.get?, same, Ne.symm same]

theorem set_eq {entry : StoreEntry} (known : a < s.size) :
    Store.set a entry s = .ok () (s.put a entry) := by
  simp only [Store.set, if_pos known, Store.put]

/-- Changing a memory puts it back. -/
theorem mapMemory_eq {m : Memory} (f : Memory → Memory) (here : s.get? a = some (.memory m)) :
    Store.mapMemory f s a = s.put a (.memory (f m)) := by
  have known : a < s.entries.size := lt_size_of_get? here
  have found : s.entries[a] = some (.memory m) := by
    simpa [Store.get?, known] using here
  simp only [Store.mapMemory, Store.put, Store.mk.injEq, and_true]
  apply Array.ext
  · simp
  · intro i bound other
    rw [Array.size_modify] at bound
    rw [Array.getElem_modify, Array.getElem_setIfInBounds bound]
    by_cases same : a = i
    · subst same
      simp [found]
    · simp [same]

/-- The store with an entry at a new address. -/
def alloc (s : Store) (entry : StoreEntry) : Store :=
  { s with entries := s.entries.push (some entry) }

/-- A new entry is at the next address, and every other address is as it was. -/
theorem get?_alloc (s : Store) (entry : StoreEntry) (a : Nat) :
    (s.alloc entry).get? a = if a = s.size then some entry else s.get? a := by
  by_cases same : a = s.entries.size
  · simp [Store.get?, Store.alloc, Store.size, same]
  · simp [Store.get?, Store.alloc, Store.size, Array.getElem?_push, same]

theorem get?_alloc_size (s : Store) (entry : StoreEntry) :
    (s.alloc entry).get? s.size = some entry := by rw [Store.get?_alloc, if_pos rfl]

/-! ## What each operation does -/

section

variable (address : Nat)

/-- Growing the memory at an address grows it and nothing else. -/
theorem growMemory_eq (delta : Nat) (s : Store) : growMemory address delta s =
    match s.memory address with
    | .error e => .error e s
    | .ok m => .ok (m.grow delta).1 (s.put address (.memory (m.grow delta).2)) := by
  cases here : s.memory address with
  | error e =>
    simp only [growMemory, bind, EStateM.bind, Outcome.run_get, here, ofResult, Outcome.run_throw]
  | ok m =>
    simp only [growMemory, bind, EStateM.bind, Outcome.run_get, here, ofResult, pure, EStateM.pure,
      set_eq (lt_size_of_get? (memory_eq_ok.1 here))]

/-- Assigning a global writes it, unless it is immutable. -/
theorem assign_eq (v : Value) (s : Store) : assign address v s =
    match s.global address with
    | .error e => .error e s
    | .ok g =>
      if g.mutability = .const then .error .immutableGlobal s
      else .ok () (s.put address (.global { g with value := v.cast g.valtype })) := by
  cases here : s.global address with
  | error e =>
    simp only [assign, bind, EStateM.bind, Outcome.run_get, here, ofResult, Outcome.run_throw]
  | ok g =>
    simp only [assign, bind, EStateM.bind, Outcome.run_get, here, ofResult, pure, EStateM.pure]
    split_ifs
    · rfl
    · exact set_eq (lt_size_of_get? (global_eq_ok.1 here))

/-- Writing to the memory at an address writes the bytes if they fit, and traps otherwise. -/
theorem writeMemory_eq (position : Nat) (bytes : List UInt8) (s : Store) :
    writeMemory address position bytes s =
      match s.memory address with
      | .error e => .error e s
      | .ok m =>
        if m.contains position bytes.length then .ok () (s.put address (.memory (m.put position bytes)))
        else .error (.trap .outOfBounds) s := by
  unfold writeMemory
  cases here : s.memory address with
  | error e => rfl
  | ok m => simp only [mapMemory_eq _ (memory_eq_ok.1 here)]

/-- Filling the table at an address fills it, or fails as the table does. -/
theorem fillTable_eq (offset : Nat) (funcs : List Nat) (s : Store) : fillTable address offset funcs s =
    match s.table address with
    | .error e => .error e s
    | .ok t =>
      match t.fill offset funcs with
      | .error e => .error e s
      | .ok t' => .ok () (s.put address (.table t')) := by
  cases here : s.table address with
  | error e =>
    simp only [fillTable, bind, EStateM.bind, Outcome.run_get, here, ofResult, Outcome.run_throw]
  | ok t =>
    simp only [fillTable, bind, EStateM.bind, Outcome.run_get, here, ofResult, pure, EStateM.pure]
    cases t.fill offset funcs with
    | error e => rfl
    | ok t' => exact set_eq (lt_size_of_get? (table_eq_ok.1 here))

end

/-- The ways in which a run changes a store. -/
inductive Writes (s s' : Store) : Prop
  | assign {address : Nat} {v : Value} (assigned : Store.assign address v s = .ok () s')
  | grow {address delta : Nat} {previous : Int}
      (grown : Store.growMemory address delta s = .ok previous s')
  | write {address position : Nat} {bytes : List UInt8}
      (written : Store.writeMemory address position bytes s = .ok () s')

/-! An operation that fails leaves the store as it is. -/

variable {address : Nat}

/-- An assignment that fails leaves the store as it was. -/
theorem assign_error {v : Value} (failed : assign address v s = .error e s') : s' = s := by
  rw [assign_eq] at failed
  split at failed
  · cases failed
    rfl
  · split_ifs at failed
    cases failed
    rfl

/-- Growing a memory that is not there leaves the store as it was. -/
theorem growMemory_error {delta : Nat} (failed : growMemory address delta s = .error e s') : s' = s := by
  rw [growMemory_eq] at failed
  split at failed
  · cases failed
    rfl
  · cases failed

/-- A filling that fails leaves the store as it was. -/
theorem fillTable_error {offset : Nat} {funcs : List Nat}
    (failed : fillTable address offset funcs s = .error e s') : s' = s := by
  rw [fillTable_eq] at failed
  split at failed
  · cases failed
    rfl
  · split at failed
    · cases failed
      rfl
    · cases failed

/-- A write that fails leaves the store as it was. -/
theorem writeMemory_error {position : Nat} {bytes : List UInt8}
    (failed : writeMemory address position bytes s = .error e s') : s' = s := by
  rw [writeMemory_eq] at failed
  split at failed
  · cases failed
    rfl
  · split_ifs at failed
    cases failed
    rfl

end Store

/-! ## Changes and extensions -/

/-- What stays of an entry: a function as a whole, the type and mutability of a global, the maximum of a memory
and the pages that it has, and the size and limits of a table.  A constant keeps its value, and a variable
gets values of its type. -/
inductive StoreEntry.Keeps : StoreEntry → StoreEntry → Prop
  | func (f : FuncInstance) : Keeps (.func f) (.func f)
  | global {g : GlobalInstance} {v : Value}
      (value : v = g.value ∨ g.mutability = .var ∧ v.type = g.valtype) :
      Keeps (.global g) (.global { g with value := v })
  | memory {m m' : Memory} (max : m'.max = m.max) (pages : m.pages ≤ m'.pages) :
      Keeps (.memory m) (.memory m')
  | table {t t' : Table} (size : t'.size = t.size) (limits : t'.limits = t.limits) :
      Keeps (.table t) (.table t')

/-- A global entry has a value of its type. -/
def StoreEntry.HasType : StoreEntry → Prop
  | .global g => g.value.type = g.valtype
  | _ => True

namespace StoreEntry.Keeps

/-- Every entry keeps itself. -/
theorem refl (e : StoreEntry) : e.Keeps e := by
  cases e with
  | func f => exact .func f
  | global g => exact .global (.inl rfl)
  | memory m => exact .memory rfl (Nat.le_refl _)
  | table t => exact .table rfl rfl

/-- What is kept twice is kept. -/
theorem trans {e e' e'' : StoreEntry} (first : e.Keeps e') (second : e'.Keeps e'') : e.Keeps e'' := by
  cases first with
  | func f => exact second
  | @global g v value =>
    cases second with
    | @global _ w later =>
      -- The later value is the earlier one or one of the type, and so is the earlier one.
      obtain rfl | ⟨mutable, type⟩ := later
      · exact .global value
      · exact .global (.inr ⟨mutable, type⟩)
  | memory max pages =>
    cases second with
    | memory max' pages' => exact .memory (max'.trans max) (Nat.le_trans pages pages')
  | table size limits =>
    cases second with
    | table size' limits' => exact .table (size'.trans size) (limits'.trans limits)

/-- An entry stays of its type. -/
theorem hasType {e e' : StoreEntry} (keeps : e.Keeps e') (type : e.HasType) : e'.HasType := by
  cases keeps with
  | func f => exact type
  | global value =>
    obtain rfl | ⟨-, typed⟩ := value
    · exact type
    · exact typed
  | memory max pages => trivial
  | table size limits => trivial

end StoreEntry.Keeps

namespace Memory

theorem max_setByte (m : Memory) (a : Nat) (b : UInt8) : (m.setByte a b).max = m.max := rfl

theorem pages_setByte (m : Memory) (a : Nat) (b : UInt8) : (m.setByte a b).pages = m.pages := by
  simp [Memory.setByte, Memory.pages]

theorem max_put (m : Memory) (a : Nat) (bytes : List UInt8) : (m.put a bytes).max = m.max := by
  induction bytes generalizing m a with
  | nil => rfl
  | cons b bytes ih => rw [Memory.put, ih, max_setByte]

theorem pages_put (m : Memory) (a : Nat) (bytes : List UInt8) : (m.put a bytes).pages = m.pages := by
  induction bytes generalizing m a with
  | nil => rfl
  | cons b bytes ih => rw [Memory.put, ih, pages_setByte]

theorem keeps_put (m : Memory) (a : Nat) (bytes : List UInt8) :
    (StoreEntry.memory m).Keeps (.memory (m.put a bytes)) :=
  .memory (m.max_put a bytes) (Nat.le_of_eq (m.pages_put a bytes).symm)

theorem keeps_grow (m : Memory) (delta : Nat) :
    (StoreEntry.memory m).Keeps (.memory (m.grow delta).2) := by
  unfold Memory.grow
  cases grown : m.grow? delta with
  | none => exact .refl _
  | some m' =>
    unfold Memory.grow? at grown
    split_ifs at grown
    cases grown
    exact .memory rfl (by simp [Memory.pages])

end Memory

theorem Table.keeps_fill {t t' : Table} {offset : Nat} {addresses : List Nat}
    (fills : t.fill offset addresses = .ok t') : (StoreEntry.table t).Keeps (.table t') := by
  unfold Table.fill at fills
  split_ifs at fills with fits
  cases fills
  refine .table ?_ rfl
  simp only [Table.size, List.length_append, List.length_take, List.length_map, List.length_drop] at fits ⊢
  omega

namespace Store

/-- A change of a store: the operations that lead from one to the other, with the addresses that they hand out
in order.  Of the instances, only those from `n` on are set up. -/
inductive Changes (n : Nat) : Store → List Nat → Store → Prop
  | refl (s : Store) : Changes n s [] s
  | trans {s t u : Store} {first second : List Nat} (before : Changes n s first t)
      (after : Changes n t second u) : Changes n s (first ++ second) u
  | malloc {s s' : Store} {entry : StoreEntry} {address : Nat}
      (done : Store.malloc entry s = .ok address s') (type : entry.HasType) : Changes n s [address] s'
  | writes {s s' : Store} (done : s.Writes s') : Changes n s [] s'
  | fill {s s' : Store} {address offset : Nat} {funcs : List Nat}
      (done : Store.fillTable address offset funcs s = .ok () s') : Changes n s [] s'
  | addInstance {s s' : Store} {m : ModuleInstance} {address : Nat}
      (done : Store.addInstance m s = .ok address s') : Changes n s [] s'
  | setInstance (s : Store) {owner : Nat} (m : ModuleInstance) (new : n ≤ owner) :
      Changes n s [] (s.setInstance owner m)

/-- A store extends another one: entries stay what others know of them, an address that was freed stays empty,
new globals have values of their types, the first `n` instances stay as they are, and the addresses that were
handed out are the numbers from the size of the first store on. -/
structure Extends (n : Nat) (s : Store) (addresses : List Nat) (s' : Store) : Prop where
  entries : ∀ a e, s.get? a = some e → ∃ e', s'.get? a = some e' ∧ e.Keeps e'
  freed : ∀ a, a < s.size → s.get? a = none → s'.get? a = none
  typed : ∀ a e, s.size ≤ a → s'.get? a = some e → e.HasType
  instances : ∀ i, i < n → s'.instances[i]? = s.instances[i]?
  handed : addresses = List.range' s.size addresses.length
  size : s'.size = s.size + addresses.length

variable {n : Nat} {s s' t : Store} {first later : List Nat}

/-! ## Every change extends the store -/

theorem size_put (s : Store) (a : Nat) (entry : StoreEntry) : (s.put a entry).size = s.size := by
  simp [Store.put, Store.size]

theorem size_alloc (s : Store) (entry : StoreEntry) : (s.alloc entry).size = s.size + 1 := by
  simp [Store.alloc, Store.size]

namespace Extends

/-- What changes no entry hands out no address. -/
theorem of_entries (same : s'.entries = s.entries)
    (instances : ∀ i, i < n → s'.instances[i]? = s.instances[i]?) : Extends n s [] s' where
  entries a e here := ⟨e, by rwa [Store.get?, same], .refl e⟩
  freed a _ none := by rwa [Store.get?, same]
  typed a e beyond here := by
    rw [Store.get?, same] at here
    exact absurd (Store.lt_size_of_get? here) (Nat.not_lt.2 beyond)
  instances := instances
  handed := rfl
  size := by simp [Store.size, same]

theorem refl (n : Nat) (s : Store) : Extends n s [] s := of_entries rfl fun _ _ => rfl

theorem trans (before : Extends n s first s') (after : Extends n s' later t) :
    Extends n s (first ++ later) t where
  entries a e here := by
    obtain ⟨e', found, keeps⟩ := before.entries a e here
    obtain ⟨e'', here', kept⟩ := after.entries a e' found
    exact ⟨e'', here', keeps.trans kept⟩
  freed a lt none := after.freed a (by rw [before.size]; omega) (before.freed a lt none)
  typed a e beyond here := by
    -- An entry made in the second part is typed by it, and one made in the first part stays so.
    by_cases new : s'.size ≤ a
    · exact after.typed a e new here
    · cases found : s'.get? a with
      | none =>
        rw [after.freed a (Nat.lt_of_not_le new) found] at here
        cases here
      | some e' =>
        obtain ⟨e'', here', keeps⟩ := after.entries a e' found
        obtain rfl := Option.some.inj (here'.symm.trans here)
        exact keeps.hasType (before.typed a e' beyond found)
  instances i lt := (after.instances i lt).trans (before.instances i lt)
  handed := by
    rw [List.length_append, ← List.range'_append_1, ← before.handed, ← before.size, ← after.handed]
  size := by rw [after.size, before.size, List.length_append, Nat.add_assoc]

/-- Allocating an entry of its type extends a store by that address. -/
theorem alloc {entry : StoreEntry} (type : entry.HasType) :
    Extends n s [s.size] (s.alloc entry) where
  entries a e here := by
    refine ⟨e, ?_, .refl e⟩
    rw [Store.get?_alloc, if_neg (Nat.ne_of_lt (Store.lt_size_of_get? here)), here]
  freed a lt none := by rw [Store.get?_alloc, if_neg (Nat.ne_of_lt lt), none]
  typed a e beyond here := by
    rw [Store.get?_alloc] at here
    split_ifs at here
    · cases here
      exact type
    · exact absurd (Store.lt_size_of_get? here) (Nat.not_lt.2 beyond)
  instances _ _ := rfl
  handed := rfl
  size := s.size_alloc entry

/-- Writing an entry that keeps what was there extends a store by nothing. -/
theorem put {a : Nat} {e entry : StoreEntry} (here : s.get? a = some e) (keeps : e.Keeps entry) :
    Extends n s [] (s.put a entry) where
  entries b e' found := by
    rw [Store.get?_put (Store.lt_size_of_get? here)]
    by_cases same : b = a
    · subst same
      obtain rfl := Option.some.inj (here.symm.trans found)
      exact ⟨entry, if_pos rfl, keeps⟩
    · exact ⟨e', by rw [if_neg same, found], .refl e'⟩
  freed b _ none := by
    rw [Store.get?_put (Store.lt_size_of_get? here), if_neg, none]
    rintro rfl
    rw [none] at here
    cases here
  typed b e' beyond found := by
    have known := Store.lt_size_of_get? found
    rw [size_put] at known
    omega
  instances _ _ := rfl
  handed := rfl
  size := s.size_put a entry

/-- An operation that a run uses puts an entry back in which what others know of it stays. -/
theorem writes (done : s.Writes s') : Extends n s [] s' := by
  cases done with
  | @assign address v assigned =>
    rw [Store.assign_eq] at assigned
    split at assigned
    · cases assigned
    · next g here =>
      split_ifs at assigned with const
      cases assigned
      refine put (Store.global_eq_ok.1 here) (.global (.inr ⟨?_, Value.type_cast _ _⟩))
      cases mutability : g.mutability with
      | const => exact absurd mutability const
      | var => rfl
  | @grow address delta previous grown =>
    rw [Store.growMemory_eq] at grown
    split at grown
    · cases grown
    · next m here =>
      cases grown
      exact put (Store.memory_eq_ok.1 here) (m.keeps_grow delta)
  | @write address position bytes written =>
    rw [Store.writeMemory_eq] at written
    split at written
    · cases written
    · next m here =>
      split_ifs at written
      cases written
      exact put (Store.memory_eq_ok.1 here) (m.keeps_put position bytes)

/-- Filling a table extends a store by nothing. -/
theorem fill {address offset : Nat} {funcs : List Nat}
    (done : Store.fillTable address offset funcs s = .ok () s') : Extends n s [] s' := by
  rw [Store.fillTable_eq] at done
  split at done
  · cases done
  · next t here =>
    split at done
    · cases done
    · next t' fills =>
      cases done
      exact put (Store.table_eq_ok.1 here) (Table.keeps_fill fills)

/-- An entry of the later store is new, or it comes from one that was there. -/
theorem hasType (ext : Extends n s first s') (types : ∀ a e, s.get? a = some e → e.HasType) (a : Nat)
    (e : StoreEntry) (here : s'.get? a = some e) : e.HasType := by
  by_cases new : s.size ≤ a
  · exact ext.typed a e new here
  · cases found : s.get? a with
    | none =>
      rw [ext.freed a (Nat.lt_of_not_le new) found] at here
      cases here
    | some e₀ =>
      obtain ⟨e', here', keeps⟩ := ext.entries a e₀ found
      obtain rfl := Option.some.inj (here'.symm.trans here)
      exact keeps.hasType (types a e₀ found)

/-- Instances stay known. -/
theorem le_instances (ext : Extends n s first s') (le : n ≤ s.instances.size) :
    n ≤ s'.instances.size := by
  by_contra beyond
  have same := ext.instances s'.instances.size (Nat.lt_of_not_le beyond)
  rw [Array.getElem?_eq_none (Nat.le_refl _), eq_comm, Array.getElem?_eq_none_iff] at same
  omega

end Extends

namespace Changes

/-- A change past some instances is a change past fewer. -/
theorem mono {n' : Nat} (changes : Changes n s first s') (le : n' ≤ n) : Changes n' s first s' := by
  induction changes with
  | refl s => exact .refl s
  | trans _ _ before after => exact .trans before after
  | malloc done type => exact .malloc done type
  | writes done => exact .writes done
  | fill done => exact .fill done
  | addInstance done => exact .addInstance done
  | setInstance s m new => exact .setInstance s m (Nat.le_trans le new)

end Changes

/-- By cases on the operations: only an instance that is added may come among the first `n`. -/
theorem Extends.of_changes (changes : Changes n s first s') (le : n ≤ s.instances.size) :
    Extends n s first s' := by
  induction changes with
  | refl s => exact .refl n s
  | trans _ _ before after => exact (before le).trans (after ((before le).le_instances le))
  | malloc done type =>
    cases done
    exact .alloc type
  | writes done => exact .writes done
  | fill done => exact .fill done
  | addInstance done =>
    cases done
    refine .of_entries rfl fun i lt => ?_
    simp [Array.getElem?_push, Nat.ne_of_lt (Nat.lt_of_lt_of_le lt le)]
  | setInstance s m new =>
    refine .of_entries rfl fun i lt => ?_
    simp [Store.setInstance, Nat.ne_of_gt (Nat.lt_of_lt_of_le lt new)]

end Store

end WasmEngine
