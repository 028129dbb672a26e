import WasmEngine.Embedding.Instantiate
import WasmEngine.Proofs.Machine.StoreExtension
import WasmEngine.Proofs.Outcome

/-!
# What an allocation adds

The fields of a module are allocated, and its exports recorded, by putting entries at new addresses of the store and
by nothing else.  So whatever this leaves in relation is in relation before and after an allocation, also where it
fails (`Linking.Adds`).
-/

namespace WasmEngine

open Outcome

namespace Linking

variable {α β : Type}

/-- A relation between stores allows new entries. -/
structure Adds (R : Store → Store → Prop) : Prop where
  refl (s : Store) : R s s
  trans {s t u : Store} : R s t → R t u → R s u
  alloc (s : Store) {entry : StoreEntry} (type : entry.HasType) : R s (s.alloc entry)

namespace Adds

variable {R : Store → Store → Prop} (adds : Adds R)
include adds

theorem pure (a : α) : Respects R (pure a : Linking α) := respects_pure adds.refl a

theorem throw (e : EngineError) : Respects R (throw e : Linking α) := respects_throw adds.refl e

/-- Two steps of linking in a row. -/
theorem bind {f : Linking α} {g : α → Linking β} (first : Respects R f) (rest : ∀ a, Respects R (g a)) :
    Respects R (f >>= g) := Respects.bind adds.trans first rest

theorem ofResult (r : Except Fault α) : Respects R (ofResult r) := by
  cases r with
  | ok a => exact adds.pure a
  | error e => exact adds.throw _

/-- A new entry respects what new entries do. -/
theorem malloc {entry : StoreEntry} (type : entry.HasType) :
    Respects R (onStore (Store.malloc entry)) := fun s => adds.alloc s type

/-- Every branch of an import that succeeds makes at most one entry, a global of the host with a value of its
declared type. -/
theorem resolveImport (imports : ImportObject) (ctx : ModuleContext) (m : ModuleInstance)
    (decl : ModuleImport) : Respects R (Linking.resolveImport imports ctx m decl) := by
  unfold Linking.resolveImport
  split
  · exact adds.throw _
  · split
    · unfold importFunc
      split
      · split_ifs
        · exact adds.throw _
        · exact adds.bind (adds.malloc (by trivial)) fun _ => adds.pure _
      · refine respects_look fun _ => adds.bind (adds.ofResult _) fun _ => ?_
        split_ifs
        · exact adds.throw _
        · exact adds.pure _
      · exact adds.throw _
    · unfold importGlobal
      split
      · split_ifs
        · exact adds.throw _
        · exact adds.bind (adds.malloc (by exact Value.type_cast _ _)) fun _ => adds.pure _
      · refine respects_look fun _ => adds.bind (adds.ofResult _) fun _ => ?_
        split_ifs
        · exact adds.throw _
        · exact adds.pure _
      · exact adds.throw _
    · unfold importMemory
      split
      · exact adds.bind (adds.malloc (by trivial)) fun _ => adds.pure _
      · exact respects_look fun _ => adds.bind (adds.ofResult _) fun _ => adds.pure _
      · exact adds.throw _
    · unfold importTable
      split
      · exact adds.bind (adds.malloc (by trivial)) fun _ => adds.pure _
      · exact respects_look fun _ => adds.bind (adds.ofResult _) fun _ => adds.pure _
      · exact adds.throw _

/-- Allocating a field looks at the store and adds entries, and nothing else. -/
theorem allocateField (imports : ImportObject) (ctx : ModuleContext) (owner : Nat)
    (m : ModuleInstance) (field : Node) : Respects R (Linking.allocateField imports ctx owner m field) := by
  unfold Linking.allocateField
  split
  · exact adds.pure _
  · exact adds.resolveImport _ _ _ _
  · exact adds.bind (adds.malloc (by trivial)) fun _ => adds.pure _
  · exact adds.bind (adds.malloc (by trivial)) fun _ => adds.pure _
  · exact adds.bind (adds.ofResult _) fun _ => adds.bind (adds.malloc (by trivial)) fun _ => adds.pure _
  · refine respects_look fun _ => adds.bind (adds.ofResult _) fun value => ?_
    refine adds.bind (adds.malloc ?_) fun _ => adds.pure _
    cases value with
    | none => exact Value.type_default _
    | some v => exact Value.type_cast _ _
  · exact adds.pure _

/-- Allocating fields looks at the store and adds entries, and nothing else. -/
theorem allocateFields (imports : ImportObject) (ctx : ModuleContext) (owner : Nat)
    (m : ModuleInstance) (fields : List Node) :
    Respects R (Linking.allocateFields imports ctx owner m fields) := by
  induction fields generalizing m with
  | nil => exact adds.pure _
  | cons field fields ih => exact adds.bind (adds.allocateField _ _ _ _ _) fun m => ih m

theorem memoryAt (m : ModuleInstance) (i : Nat) : Respects R (Linking.memoryAt m i) := by
  unfold Linking.memoryAt
  split
  · exact adds.pure _
  · exact adds.throw _

theorem tableAt (m : ModuleInstance) (i : Nat) : Respects R (Linking.tableAt m i) := by
  unfold Linking.tableAt
  split
  · exact adds.pure _
  · exact adds.throw _

/-- Finding what an export denotes only looks at the store. -/
theorem resolveExport (refuseI64 : Bool) (m : ModuleInstance) (decl : ModuleExport) :
    Respects R (Linking.resolveExport refuseI64 m decl) := by
  refine adds.bind (adds.ofResult _) fun i => ?_
  split
  · exact adds.bind (adds.ofResult _) fun _ => adds.pure _
  · refine adds.bind (adds.ofResult _) fun address => ?_
    split_ifs
    · refine respects_look fun _ => adds.bind (adds.ofResult _) fun g => ?_
      split_ifs
      · exact adds.throw _
      · exact adds.pure _
    · exact adds.pure _
  · exact adds.bind (adds.memoryAt _ _) fun _ => adds.pure _
  · exact adds.bind (adds.tableAt _ _) fun _ => adds.pure _

/-- Recording the exports only looks at the store. -/
theorem recordExports (refuseI64 : Bool) (m : ModuleInstance) (fields : List Node) :
    Respects R (Linking.recordExports refuseI64 m fields) := by
  induction fields generalizing m with
  | nil => exact adds.pure _
  | cons field fields ih =>
    unfold Linking.recordExports
    split
    · contradiction
    · rename_i same
      cases same
      exact adds.bind (adds.resolveExport _ _ _) fun _ => ih _
    · rename_i same
      cases same
      exact ih _

end Adds

end Linking

end WasmEngine
