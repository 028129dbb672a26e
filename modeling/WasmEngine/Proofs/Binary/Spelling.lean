import WasmEngine.Binary.Encode
import WasmEngine.Proofs.Binary.Reading

/-!
# Spellings

What a step of decoding gives tells how many bytes it took (`Takes`), and its spelling is decoded to
the same again, whatever follows and whatever else was read before (`Rereads`).
-/

namespace WasmEngine.Binary.Decode

open Outcome

variable {α β : Type}

/-- What a step gives has a property that depends on how many bytes it took. -/
def Takes (types : List Signature) (P : α → Nat → Prop) (m : DecodeM α) : Prop :=
  ∀ d a d', d.types = types → m d = .ok a d' → ∃ n, OnlyReads n d d' ∧ P a n

/-- A step reads exactly these bytes, and what it gives has a property. -/
def Rereads (types : List Signature) (bytes : List UInt8) (m : DecodeM α) (p : α → Prop) : Prop :=
  ∀ d rest, d.types = types → d.reader.rest = bytes ++ rest →
    ∃ a d', m d = .ok a d' ∧ OnlyReads bytes.length d d' ∧ p a

variable {types : List Signature} {m : DecodeM α} {f : α → DecodeM β}

theorem OnlyReads.types_eq {n : Nat} {d d' : Decoder} (only : OnlyReads n d d') :
    d'.types = d.types := by
  obtain ⟨-, _, _, rfl, -, -⟩ := only
  rfl

theorem OnlyReads.reader_eq {n : Nat} {d d' : Decoder} (only : OnlyReads n d d') :
    d'.reader = d.reader.advance n := by
  obtain ⟨-, _, _, rfl, -, -⟩ := only
  rfl

/-- What is behind bytes that were read. -/
theorem rest_advance {r : Reader} {bytes rest : List UInt8} (here : r.rest = bytes ++ rest) :
    (r.advance bytes.length).rest = rest := by
  rw [Reader.advance, here, List.drop_left]

section Takes

variable {P : α → Nat → Prop} {Q : β → Nat → Prop}

/-- Two computations in a row take the bytes of both. -/
theorem Takes.bind (first : Takes types P m)
    (rest : ∀ a n, P a n → Takes types (fun b k => Q b (n + k)) (f a)) :
    Takes types Q (m >>= f) := by
  intro d b d' same ends
  obtain ⟨a, e, here, there⟩ := run_bind_eq_ok_iff.1 ends
  obtain ⟨n, only, holds⟩ := first d a e same here
  obtain ⟨k, only', holds'⟩ := rest a n holds e b d' (only.types_eq.trans same) there
  exact ⟨n + k, only.trans only', holds'⟩

/-- Less may be said of what was taken. -/
theorem Takes.mono {P' : α → Nat → Prop} (first : Takes types P m)
    (weaker : ∀ a n, P a n → P' a n) : Takes types P' m := by
  intro d a d' same ends
  obtain ⟨n, only, holds⟩ := first d a d' same ends
  exact ⟨n, only, weaker a n holds⟩

theorem takes_pure {a : α} (holds : P a 0) : Takes types P (pure a) := by
  intro d b d' same ends
  obtain ⟨rfl, rfl⟩ := run_pure_eq_ok_iff.1 ends
  exact ⟨0, .refl d, holds⟩

theorem takes_failAt {offset : Nat} {kind : DecodeErrorKind} :
    Takes types P (failAt offset kind) := by
  intro d a d' same ends
  cases ends

/-- Nothing comes after a refusal. -/
theorem takes_refused {offset : Nat} {kind : DecodeErrorKind} :
    Takes types Q (failAt offset kind >>= f) := by
  have never : Takes types (fun (_ : α) _ => False) (failAt offset kind) := takes_failAt
  exact never.bind fun _ _ impossible => impossible.elim

/-- A single read takes what it gives. -/
theorem takes_read {r : Read α} (gives : Read.Gives P r) : Takes types P (read r) := by
  intro d a d' same ends
  unfold read at ends
  cases step : r d.reader with
  | ok b reader =>
    simp only [step] at ends
    cases ends
    obtain ⟨n, within, rfl, holds⟩ := gives _ _ _ step
    exact ⟨n, ⟨within, d.names, d.trace, rfl, rfl, rfl⟩, holds⟩
  | error e reader =>
    simp only [step] at ends
    cases ends

/-- A first step that takes no bytes. -/
theorem Takes.after {p : α → Prop} (first : Takes types (fun a n => n = 0 ∧ p a) m)
    (rest : ∀ a, p a → Takes types Q (f a)) : Takes types Q (m >>= f) := by
  refine first.bind fun a n ⟨still, holds⟩ => ?_
  subst still
  simp only [Nat.zero_add]
  exact rest a holds

/-- A step that takes no bytes, and what it gives. -/
theorem takes_of_still {p : α → Prop}
    (still : ∀ d a d', d.types = types → m d = .ok a d' → OnlyReads 0 d d' ∧ p a) :
    Takes types (fun a n => n = 0 ∧ p a) m :=
  fun d a d' same ends =>
    let ⟨only, holds⟩ := still d a d' same ends
    ⟨0, only, rfl, holds⟩

theorem takes_get : Takes types (fun d n => n = 0 ∧ d.types = types) get := by
  refine takes_of_still fun d a d' same ends => ?_
  cases ends
  exact ⟨.refl d, same⟩

theorem takes_pos : Takes types (fun _ n => n = 0 ∧ True) pos :=
  takes_get.after fun _ _ => takes_pure ⟨rfl, trivial⟩

/-- A note always succeeds, and takes nothing. -/
theorem note_eq (what : String) (d : Decoder) :
    ∃ d', note what d = .ok () d' ∧ OnlyReads 0 d d' := by
  refine ⟨_, rfl, ?_⟩
  dsimp only
  split
  · exact ⟨Nat.zero_le _, d.names, _, rfl, rfl, rfl⟩
  · exact .refl d

theorem takes_note (what : String) : Takes types (fun _ n => n = 0 ∧ True) (note what) := by
  refine takes_of_still fun d a d' same ends => ?_
  obtain ⟨e, ends', only⟩ := note_eq what d
  rw [ends'] at ends
  cases ends
  exact ⟨only, trivial⟩

/-- A label that was generated for a kind of block. -/
def IsLabel (stem : String) (id : Identifier) : Prop :=
  ∃ n : Nat, id = .synthesized (stem ++ "_" ++ toString n)

/-- A label always succeeds, and takes nothing. -/
theorem label_eq {stem : String} (func : stem ≠ "func") (table : stem ≠ "table") (d : Decoder) :
    ∃ id d', label stem d = .ok id d' ∧ OnlyReads 0 d d' ∧ IsLabel stem id :=
  ⟨_, _, rfl, ⟨Nat.zero_le _, _, d.trace, rfl, NameGenerator.count_unique_of_ne _ func.symm,
    NameGenerator.count_unique_of_ne _ table.symm⟩, _, rfl⟩

theorem takes_label {stem : String} (func : stem ≠ "func") (table : stem ≠ "table") :
    Takes types (fun id n => n = 0 ∧ IsLabel stem id) (label stem) := by
  refine takes_of_still fun d a d' same ends => ?_
  obtain ⟨id, e, ends', only, generated⟩ := label_eq func table d
  rw [ends'] at ends
  cases ends
  exact ⟨only, generated⟩

end Takes

section Rereads

variable {bytes bytes' : List UInt8} {p : α → Prop} {q : β → Prop}

/-- Two computations in a row read back two byte strings in a row. -/
theorem Rereads.bind (first : Rereads types bytes m p)
    (rest : ∀ a, p a → Rereads types bytes' (f a) q) :
    Rereads types (bytes ++ bytes') (m >>= f) q := by
  intro d rest_ same here
  rw [List.append_assoc] at here
  obtain ⟨a, e, ends, only, holds⟩ := first d _ same here
  have there : e.reader.rest = bytes' ++ rest_ := by rw [only.reader_eq, rest_advance here]
  obtain ⟨b, d', ends', only', holds'⟩ := rest a holds e rest_ (only.types_eq.trans same) there
  refine ⟨b, d', run_bind_eq_ok_iff.2 ⟨a, e, ends, ends'⟩, ?_, holds'⟩
  rw [List.length_append]
  exact only.trans only'

/-- Less may be said of what was read back. -/
theorem Rereads.mono {p' : α → Prop} (first : Rereads types bytes m p) (weaker : ∀ a, p a → p' a) :
    Rereads types bytes m p' := by
  intro d rest same here
  obtain ⟨a, d', ends, only, holds⟩ := first d rest same here
  exact ⟨a, d', ends, only, weaker a holds⟩

/-- A first step that gives the same again. -/
theorem Rereads.then {a : α} (first : Rereads types bytes m (· = a))
    (rest : Rereads types bytes' (f a) q) : Rereads types (bytes ++ bytes') (m >>= f) q :=
  first.bind fun _ same => same ▸ rest

/-- Last steps that read nothing. -/
theorem Rereads.finally (first : Rereads types bytes m p)
    (rest : ∀ a, p a → Rereads types [] (f a) q) : Rereads types bytes (m >>= f) q := by
  have both := first.bind rest
  rwa [List.append_nil] at both

/-- Last steps that read nothing after a first one that gives the same again. -/
theorem Rereads.last {a : α} (first : Rereads types bytes m (· = a))
    (rest : Rereads types [] (f a) q) : Rereads types bytes (m >>= f) q :=
  first.finally fun _ same => same ▸ rest

theorem rereads_pure {a : α} (holds : p a) : Rereads types [] (pure a) p :=
  fun d _ _ _ => ⟨a, d, rfl, .refl d, holds⟩

/-- What was read back may be changed afterwards. -/
theorem Rereads.map {f : α → β} (first : Rereads types bytes m p) (holds : ∀ a, p a → q (f a)) :
    Rereads types bytes (m >>= fun a => pure (f a)) q :=
  first.finally fun a now => rereads_pure (holds a now)

/-- A first step that reads nothing. -/
theorem Rereads.after (first : Rereads types [] m p) (rest : ∀ a, p a → Rereads types bytes (f a) q) :
    Rereads types bytes (m >>= f) q := first.bind rest

theorem rereads_read {r : Read α} {a : α} (spells : Read.Spells bytes r a) :
    Rereads types bytes (read r) (· = a) := by
  intro d rest same here
  have whole : d.reader = ⟨d.reader.pos, bytes ++ rest⟩ := by rw [← here]
  have moved : d.reader.advance bytes.length = ⟨d.reader.pos + bytes.length, rest⟩ := by
    rw [Reader.advance, here, List.drop_left]
  have reads := spells d.reader.pos rest
  refine ⟨a, { d with reader := d.reader.advance bytes.length }, ?_, ?_, rfl⟩
  · unfold read
    rw [moved, whole, reads]
  · refine ⟨?_, d.names, d.trace, rfl, rfl, rfl⟩
    rw [Reader.remaining, here, List.length_append]
    omega

theorem rereads_get : Rereads types [] get (·.types = types) :=
  fun d _ same _ => ⟨d, d, rfl, .refl d, same⟩

theorem rereads_pos : Rereads types [] pos fun _ => True :=
  fun d _ _ _ => ⟨_, d, rfl, .refl d, trivial⟩

theorem rereads_note (what : String) : Rereads types [] (note what) fun _ => True := by
  intro d rest same here
  obtain ⟨d', ends, only⟩ := note_eq what d
  exact ⟨(), d', ends, only, trivial⟩

theorem rereads_label {stem : String} (func : stem ≠ "func") (table : stem ≠ "table") :
    Rereads types [] (label stem) fun _ => True := by
  intro d rest same here
  obtain ⟨id, d', ends, only, -⟩ := label_eq func table d
  exact ⟨id, d', ends, only, trivial⟩

end Rereads

/-! ## Numbers and bytes -/

/-- A number of 32 bits is written as itself. -/
theorem u32_eq {n : Nat} (fits : n < UInt32.size) : Encode.u32 n = Write.unsigned n := by
  rw [Encode.u32, Nat.mod_eq_of_lt fits]

/-- A number that takes 32 bits and is spelled in no more bytes than it took. -/
def Sized (v n : Nat) : Prop := v < UInt32.size ∧ (Encode.u32 v).length ≤ n

theorem takes_u32 : Takes types Sized (read .u32) :=
  takes_read fun s v s' reads =>
    let ⟨n, within, moved, fits, shorter⟩ := Read.gives_u32 s v s' reads
    ⟨n, within, moved, fits, by rwa [u32_eq fits]⟩

theorem rereads_u32 {v : Nat} (fits : v < UInt32.size) :
    Rereads types (Encode.u32 v) (read .u32) (· = v) := by
  rw [u32_eq fits]
  exact rereads_read (Read.spells_u32 fits)

theorem length_u32_pos (v : Nat) : 0 < (Encode.u32 v).length :=
  Leb128.length_encodeUnsigned_pos _

theorem takes_byte : Takes types (fun _ n => n = 1) (read .byte) := takes_read Read.gives_byte

theorem rereads_byte (b : UInt8) : Rereads types [b] (read .byte) (· = b) :=
  rereads_read (Read.spells_byte b)

theorem takes_name :
    Takes types (fun s n => Read.IsName s ∧ (Write.name s).length ≤ n) (read .name) :=
  takes_read Read.gives_name

theorem rereads_name {s : String} (fits : Read.IsName s) :
    Rereads types (Write.name s) (read .name) (· = s) := rereads_read (Read.spells_name fits)

/-! ## Vectors -/

/-- Parts of at least some length are no more than the bytes they take allow. -/
theorem mul_length_le_flatMap {k : Nat} {enc : α → List UInt8} {as : List α}
    (each : ∀ a ∈ as, k ≤ (enc a).length) : k * as.length ≤ (as.flatMap enc).length := by
  induction as with
  | nil => exact Nat.zero_le _
  | cons a as ih =>
    obtain ⟨first, others⟩ := List.forall_mem_cons.1 each
    rw [List.flatMap_cons, List.length_append, List.length_cons, Nat.mul_succ, Nat.add_comm]
    exact Nat.add_le_add first (ih others)

/-- Items of one byte or more each are no more than bytes. -/
theorem length_le_flatMap {enc : α → List UInt8} {as : List α} (some_ : ∀ a ∈ as, 0 < (enc a).length) :
    as.length ≤ (as.flatMap enc).length := by
  have all := mul_length_le_flatMap some_
  omega

section Vectors

variable {Q : α → Prop} {enc : α → List UInt8} {step : DecodeM α}

/-- Items that are each spelled in no more bytes than were read are so together. -/
theorem takes_times (each : Takes types (fun a n => Q a ∧ (enc a).length ≤ n) step) (k : Nat) :
    Takes types (fun as n => as.length = k ∧ (∀ a ∈ as, Q a) ∧ (as.flatMap enc).length ≤ n)
      (times step k) := by
  induction k with
  | zero => exact takes_pure ⟨rfl, nofun, Nat.le_refl 0⟩
  | succ k ih =>
    refine each.bind fun a n ⟨holds, size⟩ => ih.bind fun as l ⟨count, all, sizes⟩ => takes_pure ?_
    refine ⟨by rw [List.length_cons, count], ?_, ?_⟩
    · exact List.forall_mem_cons.2 ⟨holds, all⟩
    · rw [List.flatMap_cons, List.length_append]
      omega

theorem rereads_times (each : ∀ a, Q a → Rereads types (enc a) step (· = a)) (as : List α)
    (all : ∀ a ∈ as, Q a) : Rereads types (as.flatMap enc) (times step as.length) (· = as) := by
  induction as with
  | nil => exact rereads_pure rfl
  | cons a as ih =>
    obtain ⟨holds, others⟩ := List.forall_mem_cons.1 all
    rw [List.flatMap_cons]
    exact (each a holds).then ((ih others).map fun _ same => same ▸ rfl)

/-- Repeated steps after their count. -/
theorem takes_vector (each : Takes types (fun a n => Q a ∧ (enc a).length ≤ n) step) :
    Takes types (fun as n => as.length < UInt32.size ∧ (∀ a ∈ as, Q a) ∧
      (Encode.vector enc as).length ≤ n) (read .u32 >>= times step) := by
  refine takes_u32.bind fun k n ⟨fits, size⟩ => ?_
  intro d as d' same ends
  obtain ⟨l, only, rfl, all, sizes⟩ := takes_times each k d as d' same ends
  refine ⟨l, only, fits, all, ?_⟩
  rw [Encode.vector, List.length_append]
  omega

theorem rereads_vector (each : ∀ a, Q a → Rereads types (enc a) step (· = a)) {as : List α}
    (fits : as.length < UInt32.size) (all : ∀ a ∈ as, Q a) :
    Rereads types (Encode.vector enc as) (read .u32 >>= times step) (· = as) :=
  (rereads_u32 fits).then (rereads_times each as all)

end Vectors

/-! ## Types -/

theorem takes_valtype :
    Takes types (fun t n => True ∧ [valtypeByte t].length ≤ n) valtype := by
  refine takes_pos.after fun start _ => takes_byte.bind fun b n one => ?_
  split
  · exact takes_pure ⟨trivial, by rw [one]; exact Nat.le_refl 1⟩
  · exact takes_failAt

theorem rereads_valtype (t : Valtype) : Rereads types [valtypeByte t] valtype (· = t) := by
  refine rereads_pos.after fun start _ => (rereads_byte _).last ?_
  rw [valtype?_valtypeByte]
  exact rereads_pure rfl

/-- Value types are written as other items are. -/
theorem valtypes_eq (ts : List Valtype) :
    Encode.valtypes ts = Encode.vector (fun t => [valtypeByte t]) ts := by
  rw [Encode.valtypes, Encode.vector, ← List.map_eq_flatMap]

theorem takes_valtypes :
    Takes types (fun ts n => ts.length < UInt32.size ∧ (Encode.valtypes ts).length ≤ n) valtypes := by
  intro d ts d' same ends
  obtain ⟨n, only, fits, -, size⟩ := takes_vector takes_valtype d ts d' same ends
  exact ⟨n, only, fits, by rwa [valtypes_eq]⟩

theorem rereads_valtypes {ts : List Valtype} (fits : ts.length < UInt32.size) :
    Rereads types (Encode.valtypes ts) valtypes (· = ts) := by
  rw [valtypes_eq]
  exact rereads_vector (Q := fun _ => True) (fun t _ => rereads_valtype t) fits fun _ _ => trivial

/-- Limits whose numbers take 32 bits. -/
def IsLimits (l : Limits) : Prop := l.min < UInt32.size ∧ ∀ max, l.max = some max → max < UInt32.size

theorem takes_limits :
    Takes types (fun l n => IsLimits l ∧ (Encode.limits l).length ≤ n) limits := by
  refine takes_pos.after fun start _ => takes_byte.bind fun flag n one => ?_
  split
  · refine takes_u32.bind fun min k ⟨fits, size⟩ => takes_pure ⟨⟨fits, nofun⟩, ?_⟩
    show (0x00 :: Encode.u32 min).length ≤ _
    rw [List.length_cons]
    omega
  · split
    · refine takes_u32.bind fun min k ⟨fits, size⟩ => takes_u32.bind fun max l ⟨fits', size'⟩ =>
        takes_pure ⟨⟨fits, fun max' same => ?_⟩, ?_⟩
      · exact Option.some.inj same ▸ fits'
      · show (0x01 :: (Encode.u32 min ++ Encode.u32 max)).length ≤ _
        rw [List.length_cons, List.length_append]
        omega
    · exact takes_failAt

theorem rereads_limits {l : Limits} (holds : IsLimits l) :
    Rereads types (Encode.limits l) limits (· = l) := by
  obtain ⟨min, max⟩ := l
  refine rereads_pos.after fun start _ => ?_
  cases max with
  | none => exact (rereads_byte 0).then ((rereads_u32 holds.1).map fun _ same => same ▸ rfl)
  | some max =>
    exact (rereads_byte 1).then ((rereads_u32 holds.1).then
      ((rereads_u32 (holds.2 max rfl)).map fun _ same => same ▸ rfl))

theorem mutability?_mutabilityByte (m : Mutability) : mutability? (mutabilityByte m) = some m := by
  cases m <;> rfl

theorem takes_globalType :
    Takes types (fun t n => (Encode.globalType t).length ≤ n) globalType := by
  refine takes_valtype.bind fun t n ⟨_, one⟩ => takes_pos.after fun start _ =>
    takes_byte.bind fun flag k another => ?_
  split
  · refine takes_pure ?_
    simp only [Encode.globalType, List.length_cons, List.length_nil] at one ⊢
    omega
  · exact takes_failAt

theorem rereads_globalType (t : GlobalType) :
    Rereads types (Encode.globalType t) globalType (· = t) := by
  refine (rereads_valtype t.valtype).then (rereads_pos.after fun start _ =>
    (rereads_byte _).last ?_)
  rw [mutability?_mutabilityByte]
  exact rereads_pure rfl

theorem takes_blockType :
    Takes types (fun _ n => n = 1) blockType := by
  refine takes_pos.after fun start _ => takes_byte.bind fun byte n one => ?_
  split
  · exact takes_pure one
  · split
    · exact takes_pure one
    · exact takes_failAt

theorem rereads_blockType (t : Option Valtype) :
    Rereads types [Encode.blockType t] blockType (· = t) := by
  refine rereads_pos.after fun start _ => (rereads_byte _).last ?_
  cases t with
  | none => exact rereads_pure rfl
  | some t => cases t <;> exact rereads_pure rfl

theorem takes_zeroFlag : Takes types (fun _ n => 1 ≤ n) zeroFlag := by
  refine takes_pos.after fun start _ => takes_u32.bind fun flag n ⟨fits, size⟩ => ?_
  have some_ := length_u32_pos flag
  split
  · exact takes_failAt
  · exact takes_pure (by omega)

theorem u32_zero : Encode.u32 0 = [0x00] := by
  rw [u32_eq (by decide), Write.unsigned, Leb128.encodeUnsigned]
  rfl

theorem rereads_zeroFlag : Rereads types [0x00] zeroFlag fun _ => True := by
  rw [← u32_zero]
  refine rereads_pos.after fun start _ => (rereads_u32 (v := 0) (by decide)).last ?_
  exact rereads_pure trivial

/-! ## Signatures -/

/-- A signature without names. -/
def IsAnonymous (s : Signature) : Prop := s.params = s.paramTypes.map .anonymous

/-- Types without names are determined by their parameters and results. -/
theorem eq_of_funcType {s s' : Signature} (anonymous : IsAnonymous s) (anonymous' : IsAnonymous s')
    (same : s.funcType = s'.funcType) : s = s' := by
  obtain ⟨args, results⟩ := FuncType.mk.inj same
  have params : s.params = s'.params :=
    calc s.params = s.paramTypes.map .anonymous := anonymous
      _ = s'.paramTypes.map .anonymous := by rw [args]
      _ = s'.params := anonymous'.symm
  calc s = ⟨s.params, s.results⟩ := rfl
    _ = ⟨s'.params, s'.results⟩ := by rw [params, results]
    _ = s' := rfl

/-- The place of a signature in the type section, which is where its type comes first. -/
def Placed (types : List Signature) (s : Signature) (i : Nat) : Prop :=
  (types.map Signature.funcType).findIdx? (· == s.funcType) = some i ∧ types[i]? = some s

/-- The entries of the type section for a module without other signatures. -/
def typeTable (types : List Signature) : TypeTable := ⟨types.map Signature.funcType, types.length⟩

/-- A signature that has its place is encoded as its number. -/
theorem Placed.typeIndex_eq {s : Signature} {i : Nat} (placed : Placed types s i) :
    Encode.typeIndex (.inline s) (typeTable types) = .ok (i, typeTable types) := by
  simp only [Encode.typeIndex, typeTable, placed.1]

/-- A type that is in the section has its first place at or before where it stands. -/
theorem exists_placed {later : List Signature} (extends_ : types <+: later)
    (anonymous : ∀ s ∈ later, IsAnonymous s) {s : Signature} {k : Nat} (here : types[k]? = some s) :
    ∃ i, i ≤ k ∧ Placed later s i := by
  obtain ⟨within, here⟩ := List.getElem?_eq_some_iff.1 here
  have there : later[k]? = some s := by
    obtain ⟨tail, rfl⟩ := extends_
    rw [List.getElem?_append_left within, List.getElem?_eq_getElem within, here]
  have equal : (later.map Signature.funcType)[k]? = some s.funcType := by
    rw [List.getElem?_map, there]
    rfl
  cases found : (later.map Signature.funcType).findIdx? (· == s.funcType) with
  | none =>
    have differs := List.findIdx?_eq_none_iff.1 found _ (List.mem_of_getElem? equal)
    simp at differs
  | some i =>
    obtain ⟨known, first, earlier⟩ := List.findIdx?_eq_some_iff_getElem.1 found
    have le : i ≤ k := by
      by_contra later_
      obtain ⟨bound, value⟩ := List.getElem?_eq_some_iff.1 equal
      have other := earlier k (by omega)
      rw [value] at other
      simp at other
    rw [List.length_map] at known
    rw [List.getElem_map, beq_iff_eq] at first
    have same := eq_of_funcType (anonymous _ (List.getElem_mem known))
      (anonymous _ (List.mem_of_getElem? there)) first
    exact ⟨i, le, found, by rw [List.getElem?_eq_getElem known, same]⟩

/-- The place of a signature takes no more bytes than the index that was read. -/
theorem exists_placed_sized {later : List Signature} (extends_ : types <+: later)
    (anonymous : ∀ s ∈ later, IsAnonymous s) {s : Signature} {k n : Nat}
    (here : types[k]? = some s) (sized : Sized k n) : ∃ i, Placed later s i ∧ Sized i n := by
  obtain ⟨fits, size⟩ := sized
  obtain ⟨i, le, placed⟩ := exists_placed extends_ anonymous here
  have shorter := Leb128.length_encodeUnsigned_mono le
  have fits' := Nat.lt_of_le_of_lt le fits
  rw [u32_eq fits] at size
  refine ⟨i, placed, fits', ?_⟩
  rw [u32_eq fits']
  exact Nat.le_trans shorter size

/-- A signature that was read by its number has its place in the type section, at or before that number. -/
theorem takes_typeIndex {later : List Signature} (extends_ : types <+: later)
    (anonymous : ∀ s ∈ later, IsAnonymous s) :
    Takes types (fun s n => ∃ i, Placed later s i ∧ Sized i n) typeIndex := by
  refine takes_pos.after fun start _ => takes_u32.bind fun k n sized =>
    (takes_note _).after fun _ _ => takes_get.after fun d same => ?_
  rw [same]
  split
  · next s here => exact takes_pure (exists_placed_sized extends_ anonymous here sized)
  · exact takes_failAt

theorem rereads_typeIndex {s : Signature} {i : Nat} (placed : Placed types s i)
    (fits : i < UInt32.size) : Rereads types (Encode.u32 i) typeIndex (· = s) := by
  refine rereads_pos.after fun start _ => (rereads_u32 fits).last
    ((rereads_note _).after fun _ _ => rereads_get.after fun d same => ?_)
  rw [same, placed.2]
  exact rereads_pure rfl

end WasmEngine.Binary.Decode
