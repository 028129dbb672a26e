import WasmEngine.Binary.Sections
import WasmEngine.Proofs.Binary.Reading

/-!
# Where decoding stands

A decoding moves in its input by single reads.  Whatever the input is, it goes forward only, none of the
offsets that it passes lies beyond the input, and it fails at an offset that it passed (`Proceeds`).
-/

namespace WasmEngine

open Binary (DecodeErrorKind)

/-! ## Readers -/

namespace Reader

/-- A reader at the same place or further on in the same bytes. -/
def Later (r r' : Reader) : Prop := ∃ n, n ≤ r.remaining ∧ r' = r.advance n

variable {r r' r'' : Reader}

theorem Later.refl (r : Reader) : r.Later r := ⟨0, Nat.zero_le _, rfl⟩

/-- A reader further on is further on than those before. -/
theorem Later.trans (first : r.Later r') (second : r'.Later r'') : r.Later r'' := by
  obtain ⟨n, within, rfl⟩ := first
  obtain ⟨k, within', rfl⟩ := second
  refine ⟨n + k, ?_, ?_⟩
  · simp only [remaining, advance, List.length_drop] at *
    omega
  · simp only [advance, List.drop_drop, Nat.add_assoc]

/-- Moving on does not change how long the whole input is. -/
theorem Later.size_eq (later : r.Later r') : r'.size = r.size := by
  obtain ⟨n, within, rfl⟩ := later
  simp only [size, advance, remaining, List.length_drop] at *
  omega

theorem pos_le_size (r : Reader) : r.pos ≤ r.size := Nat.le_add_right _ _

end Reader

namespace Read

/-- The reads by which a decoding moves in its input: a number, some bytes, or none of them because it
fails. -/
inductive Single : {α : Type} → Read α → Prop
  | byte : Single byte
  | bytes (n : Nat) : Single (bytes n)
  | skip (n : Nat) : Single (skip n)
  | word (width : Nat) : Single (word width)
  | u32 : Single u32
  | i32 : Single i32
  | i64 : Single i64
  | fail {α : Type} (kind : DecodeErrorKind) : Single (fail kind : Read α)

variable {α : Type} {r : Read α}

/-- A number that is malformed is reported where it begins. -/
theorem stays_of_leb_error {decode : List UInt8 → Except Leb128.Error (α × Nat)} {s s' : Reader}
    {e : Binary.DecodeError} (reads : leb decode s = .error e s') : s' = s ∧ e.offset = s.pos := by
  unfold leb at reads
  split at reads
  · cases reads
  · cases reads
    exact ⟨rfl, rfl⟩
  · cases reads
    exact ⟨rfl, rfl⟩

/-- A reader that fails stays where it is, and fails there. -/
theorem Single.stays (single : r.Single) {s s' : Reader} {e : Binary.DecodeError}
    (reads : r s = .error e s') : s' = s ∧ e.offset = s.pos := by
  cases single with
  | byte =>
    unfold Read.byte at reads
    split at reads
    · cases reads
      exact ⟨rfl, rfl⟩
    · cases reads
  | bytes n =>
    unfold Read.bytes at reads
    split_ifs at reads
    cases reads
    exact ⟨rfl, rfl⟩
  | skip n =>
    unfold Read.skip at reads
    split_ifs at reads
    cases reads
    exact ⟨rfl, rfl⟩
  | word width =>
    unfold Read.word at reads
    split_ifs at reads
    cases reads
    exact ⟨rfl, rfl⟩
  | u32 => exact stays_of_leb_error reads
  | i32 => exact stays_of_leb_error reads
  | i64 => exact stays_of_leb_error reads
  | fail kind =>
    cases reads
    exact ⟨rfl, rfl⟩

end Read

namespace Binary

open Outcome

/-- Two decoders with the same sections behind them. -/
def Decoder.SameSections (d e : Decoder) : Prop :=
  e.metadata.sections = d.metadata.sections ∧ e.nextSection = d.nextSection

namespace Decode

variable {α β : Type} {m : DecodeM α} {f : α → DecodeM β} {inside : Prop} {lo mid hi : Nat}

/-! ## Offsets on the way -/

/-- The offsets that a computation passes: where it stands after each single read.  Apart from these
reads it does nothing to its reader. -/
inductive Passes : {α : Type} → DecodeM α → Decoder → List Nat → Prop
  | pure {α : Type} (a : α) (d : Decoder) : Passes (pure a) d []
  | throw {α : Type} (e : DecodeError) (d : Decoder) : Passes (throw e : DecodeM α) d []
  | get (d : Decoder) : Passes get d []
  | modify {f : Decoder → Decoder} (keeps : ∀ d, (f d).reader = d.reader) (d : Decoder) :
    Passes (modify f) d []
  | fresh (stem : String) (d : Decoder) : Passes (fresh stem) d []
  | read {α : Type} {r : Read α} (single : r.Single) (d : Decoder) :
    Passes (read r) d [(final (read r d)).reader.pos]
  | bind {α β : Type} {m : DecodeM α} {f : α → DecodeM β} {d e : Decoder} {a : α} {ps qs : List Nat}
    (first : Passes m d ps) (ends : m d = .ok a e) (rest : Passes (f a) e qs) :
    Passes (m >>= f) d (ps ++ qs)
  | stop {α β : Type} {m : DecodeM α} {f : α → DecodeM β} {d e : Decoder} {x : DecodeError}
    {ps : List Nat} (first : Passes m d ps) (fails : m d = .error x e) : Passes (m >>= f) d ps

/-- A computation that starts at offset `lo` or later passes no offset beyond the input and never goes
back.  If it succeeds it stands at `hi` or later, and if it fails then at an offset that it passed.
`inside` says that it reads what is inside a section. -/
def Proceeds (inside : Prop) (lo hi : Nat) (m : DecodeM α) : Prop :=
  ∀ d, lo ≤ d.reader.pos →
    (∃ ps, Passes m d ps ∧ ∀ p ∈ ps, p ≤ d.reader.size) ∧
    match m d with
    | .ok _ e => d.reader.Later e.reader ∧ hi ≤ e.reader.pos ∧ (inside → d.SameSections e)
    | .error x e => d.reader.Later e.reader ∧ x.offset ≤ e.reader.pos

/-- What success says of a computation that proceeds. -/
theorem Proceeds.of_ok {d e : Decoder} {a : α} (proceeds : Proceeds inside lo hi m)
    (from_ : lo ≤ d.reader.pos) (ends : m d = .ok a e) :
    d.reader.Later e.reader ∧ hi ≤ e.reader.pos ∧ (inside → d.SameSections e) := by
  have outcome := (proceeds d from_).2
  rwa [ends] at outcome

/-- What failure says of a computation that proceeds. -/
theorem Proceeds.of_error {d e : Decoder} {x : DecodeError} (proceeds : Proceeds inside lo hi m)
    (from_ : lo ≤ d.reader.pos) (fails : m d = .error x e) :
    d.reader.Later e.reader ∧ x.offset ≤ e.reader.pos := by
  have outcome := (proceeds d from_).2
  rwa [fails] at outcome

/-- The bounds may be made weaker. -/
theorem Proceeds.mono {inside' : Prop} {lo' hi' : Nat} (proceeds : Proceeds inside lo hi m)
    (imp : inside' → inside) (above : lo ≤ lo') (below : hi' ≤ hi) : Proceeds inside' lo' hi' m := by
  intro d from_
  refine ⟨(proceeds d (above.trans from_)).1, ?_⟩
  cases ends : m d with
  | ok a e =>
    obtain ⟨later, there, same⟩ := proceeds.of_ok (above.trans from_) ends
    exact ⟨later, below.trans there, fun now => same (imp now)⟩
  | error x e => exact proceeds.of_error (above.trans from_) ends

/-- Two computations in a row proceed from the bound of the first to that of the second. -/
theorem Proceeds.bind (first : Proceeds inside lo mid m) (rest : ∀ a, Proceeds inside mid hi (f a)) :
    Proceeds inside lo hi (m >>= f) := by
  intro d from_
  obtain ⟨⟨ps, passes, within⟩, -⟩ := first d from_
  cases ends : m d with
  | ok a e =>
    obtain ⟨later, there, same⟩ := first.of_ok from_ ends
    obtain ⟨⟨qs, passes', within'⟩, -⟩ := rest a e there
    rw [later.size_eq] at within'
    refine ⟨⟨ps ++ qs, passes.bind ends passes', List.forall_mem_append.2 ⟨within, within'⟩⟩, ?_⟩
    rw [bind_ok ends]
    cases ends' : f a e with
    | ok b t =>
      obtain ⟨later', there', same'⟩ := (rest a).of_ok there ends'
      exact ⟨later.trans later', there', fun now =>
        ⟨(same' now).1.trans (same now).1, (same' now).2.trans (same now).2⟩⟩
    | error x t =>
      obtain ⟨later', passed⟩ := (rest a).of_error there ends'
      exact ⟨later.trans later', passed⟩
  | error x e =>
    refine ⟨⟨ps, passes.stop ends, within⟩, ?_⟩
    rw [bind_error ends]
    exact first.of_error from_ ends

theorem proceeds_pure (a : α) : Proceeds inside lo lo (pure a : DecodeM α) := fun d from_ =>
  ⟨⟨[], .pure a d, nofun⟩, .refl _, from_, fun _ => ⟨rfl, rfl⟩⟩

/-- Failing is allowed at an offset that was passed. -/
theorem proceeds_failAt {offset : Nat} (passed : offset ≤ lo) (kind : DecodeErrorKind) :
    Proceeds inside lo hi (failAt offset kind : DecodeM α) := fun d from_ =>
  ⟨⟨[], .throw _ d, nofun⟩, .refl _, passed.trans from_⟩

theorem get_eq (d : Decoder) : (get : DecodeM Decoder) d = .ok d d := rfl

theorem pos_eq (d : Decoder) : pos d = .ok d.reader.pos d := rfl

/-- What follows a look at the decoder starts where the decoder stands. -/
theorem proceeds_get_add {k : Nat} {f : Decoder → DecodeM β}
    (rest : ∀ d : Decoder, Proceeds inside d.reader.pos (d.reader.pos + k) (f d)) :
    Proceeds inside lo (lo + k) (get >>= f) := by
  intro d from_
  obtain ⟨⟨ps, passes, within⟩, outcome⟩ :=
    ((rest d).mono id (Nat.le_refl _) (Nat.add_le_add_right from_ k)) d (Nat.le_refl _)
  exact ⟨⟨[] ++ ps, .bind (.get d) rfl passes, within⟩, outcome⟩

theorem proceeds_get {f : Decoder → DecodeM β}
    (rest : ∀ d : Decoder, Proceeds inside d.reader.pos d.reader.pos (f d)) :
    Proceeds inside lo lo (get >>= f) := proceeds_get_add (k := 0) rest

theorem proceeds_pos_add {k : Nat} {f : Nat → DecodeM β}
    (rest : ∀ here, Proceeds inside here (here + k) (f here)) :
    Proceeds inside lo (lo + k) (pos >>= f) := by
  rw [pos, bind_assoc]
  refine proceeds_get_add fun d => ?_
  rw [pure_bind]
  exact rest d.reader.pos

theorem proceeds_pos {f : Nat → DecodeM β} (rest : ∀ here, Proceeds inside here here (f here)) :
    Proceeds inside lo lo (pos >>= f) := proceeds_pos_add (k := 0) rest

/-- What follows a look at the decoder keeps the offset that was passed before. -/
theorem proceeds_look {f : Decoder → DecodeM β} (rest : ∀ d, Proceeds inside lo hi (f d)) :
    Proceeds inside lo hi (get >>= f) := by
  intro d from_
  obtain ⟨⟨ps, passes, within⟩, outcome⟩ := rest d d from_
  exact ⟨⟨[] ++ ps, .bind (.get d) rfl passes, within⟩, outcome⟩

/-- What is checked first may be refused. -/
theorem proceeds_check {c : Prop} [Decidable c] {refuse : DecodeM Unit} {next : Unit → DecodeM β}
    (refuses : Proceeds inside lo lo refuse) (rest : ∀ u, Proceeds inside lo hi (next u)) :
    Proceeds inside lo hi (if c then refuse >>= next else next ()) := by
  split
  · exact refuses.bind rest
  · exact rest ()

theorem proceeds_modify {change : Decoder → Decoder} (keeps : ∀ d, (change d).reader = d.reader)
    (same : inside → ∀ d : Decoder, d.SameSections (change d)) : Proceeds inside lo lo (modify change) := by
  intro d from_
  refine ⟨⟨[], .modify keeps d, nofun⟩, ?_⟩
  show d.reader.Later (change d).reader ∧ lo ≤ (change d).reader.pos ∧ _
  rw [keeps]
  exact ⟨.refl _, from_, fun now => same now d⟩

/-- Updates of what was read so far leave the reader and the sections alone. -/
theorem proceeds_update {change : Decoder → Decoder}
    (keeps : ∀ d : Decoder, (change d).reader = d.reader ∧ d.SameSections (change d)) :
    Proceeds inside lo lo (modify change) :=
  proceeds_modify (fun d => (keeps d).1) fun _ d => (keeps d).2

theorem proceeds_fresh (stem : String) : Proceeds inside lo lo (fresh stem) := fun d from_ =>
  ⟨⟨[], .fresh stem d, nofun⟩, .refl _, from_, fun _ => ⟨rfl, rfl⟩⟩

/-- A single read takes some bytes. -/
theorem proceeds_taking {P : α → Nat → Prop} {r : Read α} {k : Nat} (single : r.Single)
    (gives : Read.Gives P r) (takes : ∀ a n, P a n → k ≤ n) :
    Proceeds inside lo (lo + k) (read r) := by
  intro d from_
  have outcome : match read r d with
      | .ok _ e => d.reader.Later e.reader ∧ lo + k ≤ e.reader.pos ∧ (inside → d.SameSections e)
      | .error x e => d.reader.Later e.reader ∧ x.offset ≤ e.reader.pos := by
    unfold read
    cases step : r d.reader with
    | ok a reader =>
      obtain ⟨n, within, rfl, holds⟩ := gives _ _ _ step
      exact ⟨⟨n, within, rfl⟩, Nat.add_le_add from_ (takes a n holds), fun _ => ⟨rfl, rfl⟩⟩
    | error x reader =>
      obtain ⟨rfl, offset⟩ := single.stays step
      exact ⟨.refl _, Nat.le_of_eq offset⟩
  refine ⟨⟨_, .read single d, ?_⟩, outcome⟩
  intro p isHere
  obtain rfl := List.mem_singleton.1 isHere
  have later : d.reader.Later (final (read r d)).reader := by
    cases ends : read r d with
    | ok a e => exact (ends ▸ outcome).1
    | error x e => exact (ends ▸ outcome).1
  exact later.size_eq ▸ Reader.pos_le_size _

theorem proceeds_read {P : α → Nat → Prop} {r : Read α} (single : r.Single)
    (gives : Read.Gives P r) : Proceeds inside lo lo (read r) :=
  proceeds_taking (k := 0) single gives fun _ _ _ => Nat.zero_le _

theorem proceeds_fail (kind : DecodeErrorKind) : Proceeds inside lo lo (read (.fail kind) : DecodeM α) :=
  proceeds_read (.fail kind) (Read.gives_fail (P := fun _ _ => True))

theorem proceeds_byte : Proceeds inside lo lo (read .byte) := proceeds_read .byte Read.gives_byte

theorem proceeds_u32 : Proceeds inside lo lo (read .u32) := proceeds_read .u32 Read.gives_u32

theorem proceeds_bytes (n : Nat) : Proceeds inside lo (lo + n) (read (.bytes n)) :=
  proceeds_taking (.bytes n) (Read.gives_bytes n) fun _ _ holds => Nat.le_of_eq holds.2.symm

theorem proceeds_byte_succ : Proceeds inside lo (lo + 1) (read .byte) :=
  proceeds_taking .byte Read.gives_byte fun _ _ one => Nat.le_of_eq one.symm

theorem proceeds_note (what : String) : Proceeds inside lo lo (note what) := by
  refine proceeds_modify (fun d => ?_) fun _ d => ?_
  · split <;> rfl
  · split <;> exact ⟨rfl, rfl⟩

theorem proceeds_addField (field : Node) : Proceeds inside lo lo (addField field) :=
  proceeds_update (by exact fun _ => ⟨rfl, rfl, rfl⟩)

theorem proceeds_times {step : DecodeM α} (proceeds : Proceeds inside lo lo step) (n : Nat) :
    Proceeds inside lo lo (times step n) := by
  induction n with
  | zero => exact proceeds_pure []
  | succ n ih => exact proceeds.bind fun a => ih.bind fun as => proceeds_pure _

theorem proceeds_forEach {step : Nat → DecodeM Unit} (proceeds : ∀ i, Proceeds inside lo lo (step i))
    (i n : Nat) : Proceeds inside lo lo (forEach step i n) := by
  induction n generalizing i with
  | zero => exact proceeds_pure ()
  | succ n ih => exact (proceeds i).bind fun _ => ih (i + 1)

theorem proceeds_skipTo (stop : Nat) : Proceeds inside lo lo (skipTo stop) :=
  proceeds_pos fun _ => proceeds_read (.skip _) (Read.gives_skip _)

theorem proceeds_expectPosition (stop : Nat) (what : String) :
    Proceeds inside lo lo (expectPosition stop what) := by
  refine proceeds_pos fun here => ?_
  split
  · exact proceeds_failAt (Nat.le_refl _) _
  · exact proceeds_pure ()

/-- A text is its length and its bytes. -/
theorem read_name : read .name = (do
    let length ← read .u32
    let start ← pos
    let bytes ← read (.bytes length)
    match Text.ofUtf8? bytes with
    | some s => pure s
    | none => failAt start .invalidUtf8) := by
  funext d
  simp only [read, Read.name, pos, bind, EStateM.bind, pure, EStateM.pure, run_get]
  cases Read.u32 d.reader with
  | error e reader => rfl
  | ok length reader =>
    dsimp only
    cases Read.bytes length reader with
    | error e reader' => rfl
    | ok bytes reader' =>
      dsimp only
      cases Text.ofUtf8? bytes <;> rfl

theorem proceeds_name : Proceeds inside lo lo (read .name) := by
  rw [read_name]
  refine proceeds_u32.bind fun length => proceeds_pos fun start =>
    (proceeds_read (.bytes _) (Read.gives_bytes _)).bind fun bytes => ?_
  split
  · exact proceeds_pure _
  · exact proceeds_failAt (Nat.le_refl _) _

theorem proceeds_valtype : Proceeds inside lo lo valtype := by
  refine proceeds_pos fun start => proceeds_byte.bind fun byte => ?_
  split
  · exact proceeds_pure _
  · exact proceeds_failAt (Nat.le_refl _) _

theorem proceeds_valtypes : Proceeds inside lo lo valtypes :=
  proceeds_u32.bind fun count => proceeds_times proceeds_valtype count

theorem proceeds_typeIndex : Proceeds inside lo lo typeIndex := by
  refine proceeds_pos fun start => proceeds_u32.bind fun index =>
    (proceeds_note _).bind fun _ => ?_
  refine proceeds_look fun d => ?_
  split
  · exact proceeds_pure _
  · exact proceeds_failAt (Nat.le_refl _) _

theorem proceeds_limits : Proceeds inside lo lo limits := by
  refine proceeds_pos fun start => proceeds_byte.bind fun flag => ?_
  split
  · exact proceeds_u32.bind fun min => proceeds_pure _
  · split
    · exact proceeds_u32.bind fun min => proceeds_u32.bind fun max => proceeds_pure _
    · exact proceeds_failAt (Nat.le_refl _) _

theorem proceeds_tableType : Proceeds inside lo lo tableType :=
  proceeds_look fun _ => proceeds_pos fun start => proceeds_byte.bind fun _ =>
    proceeds_check (proceeds_failAt (Nat.le_refl _) _) fun _ => proceeds_limits.bind fun _ =>
      (proceeds_fresh _).bind fun _ =>
        Proceeds.bind (proceeds_update (by exact fun _ => ⟨rfl, rfl, rfl⟩)) fun _ => proceeds_pure _

theorem proceeds_globalType : Proceeds inside lo lo globalType := by
  refine proceeds_valtype.bind fun type => proceeds_pos fun start =>
    proceeds_byte.bind fun flag => ?_
  split
  · exact proceeds_pure _
  · exact proceeds_failAt (Nat.le_refl _) _

theorem proceeds_blockType : Proceeds inside lo lo blockType := by
  refine proceeds_pos fun start => proceeds_byte.bind fun byte => ?_
  split
  · exact proceeds_pure _
  · split
    · exact proceeds_pure _
    · exact proceeds_failAt (Nat.le_refl _) _

theorem proceeds_zeroFlag : Proceeds inside lo lo zeroFlag := by
  refine proceeds_pos fun start => proceeds_u32.bind fun flag => ?_
  split
  · exact proceeds_failAt (Nat.le_refl _) _
  · exact proceeds_pure ()

theorem proceeds_simple (op : Opcode) : Proceeds inside lo lo (simple op) := by
  unfold simple
  split
  · exact proceeds_pure _
  · exact proceeds_pure _
  · refine proceeds_u32.bind fun index => ?_
    split
    · exact proceeds_pure _
    · exact proceeds_pure _
  · exact proceeds_u32.bind fun count =>
      (proceeds_times proceeds_u32 _).bind fun labels => proceeds_pure _
  · refine proceeds_pos fun start => proceeds_u32.bind fun index => proceeds_look fun d => ?_
    split
    · exact proceeds_failAt (Nat.le_refl _) _
    · exact proceeds_zeroFlag.bind fun _ => proceeds_pure _
  · exact proceeds_u32.bind fun align => proceeds_u32.bind fun offset => proceeds_pure _
  · exact proceeds_zeroFlag.bind fun _ => proceeds_pure _
  · exact (proceeds_read .i32 Read.gives_i32).bind fun value => proceeds_pure _
  · exact (proceeds_read .i64 Read.gives_i64).bind fun value => proceeds_pure _
  · exact (proceeds_read (.word _) (Read.gives_word _)).bind fun bits => proceeds_pure _
  · exact (proceeds_read (.word _) (Read.gives_word _)).bind fun bits => proceeds_pure _

/-! ## Sequences of instructions -/

theorem proceeds_requireFinish (t : Terminator) : Proceeds inside lo lo (requireFinish t) := by
  unfold requireFinish
  split
  · exact proceeds_pos fun here => proceeds_failAt (Nat.sub_le here 1) _
  · exact proceeds_pure ()

theorem proceeds_label (stem : String) : Proceeds inside lo lo (label stem) :=
  (proceeds_fresh stem).bind fun _ => proceeds_pure _

section Sequences

variable {fuel : Nat} (ih : ∀ depth lo, Proceeds inside lo lo (instructions fuel depth))
include ih

theorem proceeds_closed (depth : Nat) : Proceeds inside lo lo (closed fuel depth) :=
  (ih depth lo).bind fun _ => (proceeds_requireFinish _).bind fun _ => proceeds_pure _

theorem proceeds_alternative (depth : Nat) (terminator : Terminator) :
    Proceeds inside lo lo (alternative fuel depth terminator) := by
  unfold alternative
  split
  · exact proceeds_closed ih _
  · exact proceeds_pure []

theorem proceeds_conditional (depth : Nat) (result : Option Valtype) :
    Proceeds inside lo lo (conditional fuel depth result) :=
  (proceeds_label _).bind fun _ => (ih _ _).bind fun _ => (proceeds_alternative ih _ _).bind fun _ =>
    proceeds_pure _

theorem proceeds_enclosed (depth : Nat) (byte : UInt8) (result : Option Valtype) :
    Proceeds inside lo lo (enclosed fuel depth byte result) := by
  refine (proceeds_closed ih _).bind fun body => ?_
  split
  · exact (proceeds_label _).bind fun _ => proceeds_pure _
  · exact (proceeds_label _).bind fun _ => proceeds_pure _

/-- An instruction begins with the byte at `start`, which was passed. -/
theorem proceeds_instruction {start : Nat} (passed : start ≤ lo) (depth : Nat) (byte : UInt8)
    (op : Opcode) : Proceeds inside lo lo (instruction fuel depth start byte op) := by
  unfold instruction
  split
  · refine proceeds_check (proceeds_failAt passed _) fun _ => proceeds_blockType.bind fun result => ?_
    split
    · exact proceeds_conditional ih depth result
    · exact proceeds_enclosed ih depth byte result
  · exact proceeds_simple op

end Sequences

theorem proceeds_instructions (fuel depth lo : Nat) :
    Proceeds inside lo lo (instructions fuel depth) := by
  induction fuel generalizing depth lo with
  | zero => exact proceeds_fail _
  | succ fuel ih =>
    rw [instructions_succ]
    refine proceeds_pos fun start => proceeds_byte.bind fun byte => ?_
    split
    · exact proceeds_failAt (Nat.le_refl _) _
    · next op found =>
      refine (proceeds_note _).bind fun _ => ?_
      split
      · exact proceeds_pure _
      · split
        · exact proceeds_pure _
        · exact (proceeds_instruction ih (Nat.le_refl _) _ _ _).bind fun node =>
            (ih depth _).bind fun _ => proceeds_pure _

theorem proceeds_expression : Proceeds inside lo lo expression :=
  proceeds_look fun _ => proceeds_closed (fun depth lo => proceeds_instructions _ depth lo) 0

/-! ## Entries of sections -/

theorem proceeds_typeEntry (i : Nat) : Proceeds inside lo lo (typeEntry i) :=
  proceeds_pos fun _ => proceeds_byte.bind fun _ =>
    proceeds_check (proceeds_failAt (Nat.le_refl _) _) fun _ => (proceeds_note _).bind fun _ =>
      proceeds_valtypes.bind fun _ => proceeds_valtypes.bind fun _ =>
        Proceeds.bind (proceeds_update (by exact fun _ => ⟨rfl, rfl, rfl⟩)) fun _ => proceeds_addField _

theorem proceeds_importDescr (name : String) : Proceeds inside lo lo (importDescr name) := by
  refine proceeds_pos fun start => proceeds_byte.bind fun kind => ?_
  split
  · exact proceeds_typeIndex.bind fun signature =>
      Proceeds.bind (proceeds_update (by exact fun _ => ⟨rfl, rfl, rfl⟩)) fun _ => proceeds_pure _
  · exact proceeds_tableType.bind fun table => proceeds_pure _
  · exact proceeds_limits.bind fun limits =>
      Proceeds.bind (proceeds_update (by exact fun _ => ⟨rfl, rfl, rfl⟩)) fun _ => proceeds_pure _
  · exact proceeds_globalType.bind fun type =>
      Proceeds.bind (proceeds_update (by exact fun _ => ⟨rfl, rfl, rfl⟩)) fun _ => proceeds_pure _
  · exact proceeds_failAt (Nat.le_refl _) _

theorem proceeds_importEntry (i : Nat) : Proceeds inside lo lo (importEntry i) :=
  proceeds_name.bind fun _ => proceeds_name.bind fun _ => (proceeds_note _).bind fun _ =>
    (proceeds_importDescr _).bind fun _ => proceeds_addField _

theorem proceeds_functionEntry (i : Nat) : Proceeds inside lo lo (functionEntry i) :=
  proceeds_typeIndex.bind fun _ => (proceeds_fresh _).bind fun _ =>
    proceeds_update (by exact fun _ => ⟨rfl, rfl, rfl⟩)

theorem proceeds_tableEntry (i : Nat) : Proceeds inside lo lo (tableEntry i) :=
  proceeds_tableType.bind fun _ => proceeds_addField _

theorem proceeds_memoryEntry (i : Nat) : Proceeds inside lo lo (memoryEntry i) :=
  proceeds_limits.bind fun _ =>
    Proceeds.bind (proceeds_update (by exact fun _ => ⟨rfl, rfl, rfl⟩)) fun _ => proceeds_addField _

theorem proceeds_globalEntry (i : Nat) : Proceeds inside lo lo (globalEntry i) :=
  proceeds_globalType.bind fun _ => proceeds_expression.bind fun _ =>
    Proceeds.bind (proceeds_update (by exact fun _ => ⟨rfl, rfl, rfl⟩)) fun _ => proceeds_addField _

theorem proceeds_exportEntry (i : Nat) : Proceeds inside lo lo (exportEntry i) := by
  refine proceeds_name.bind fun name => proceeds_pos fun start => proceeds_byte.bind fun byte =>
    proceeds_u32.bind fun index => (proceeds_note _).bind fun _ => ?_
  split
  · exact proceeds_failAt (Nat.le_refl _) _
  · exact proceeds_look fun d => proceeds_check (proceeds_failAt (Nat.le_refl _) _) fun _ =>
      proceeds_update (by exact fun _ => ⟨rfl, rfl, rfl⟩)

theorem proceeds_startSection : Proceeds inside lo lo startSection :=
  proceeds_u32.bind fun _ => (proceeds_note _).bind fun _ => proceeds_addField _

theorem proceeds_elementEntry (i : Nat) : Proceeds inside lo lo (elementEntry i) :=
  proceeds_u32.bind fun _ => proceeds_expression.bind fun _ => proceeds_u32.bind fun _ =>
    (proceeds_times proceeds_u32 _).bind fun _ => proceeds_addField _

theorem proceeds_localRuns (total n : Nat) : Proceeds inside lo lo (localRuns total n) := by
  induction n generalizing total with
  | zero => exact proceeds_pure []
  | succ n ih =>
    exact proceeds_u32.bind fun count => proceeds_check (proceeds_fail _) fun _ =>
      proceeds_valtype.bind fun type => (ih _).bind fun rest => proceeds_pure _

theorem proceeds_codeEntry (i : Nat) : Proceeds inside lo lo (codeEntry i) :=
  proceeds_u32.bind fun _ => proceeds_pos fun _ => (proceeds_note _).bind fun _ =>
    proceeds_u32.bind fun _ => (proceeds_localRuns _ _).bind fun _ =>
      proceeds_expression.bind fun _ => (proceeds_expectPosition _ _).bind fun _ =>
        proceeds_update (by exact fun _ => ⟨rfl, rfl, rfl⟩)

theorem proceeds_dataEntry (i : Nat) : Proceeds inside lo lo (dataEntry i) :=
  proceeds_u32.bind fun _ => proceeds_pos fun _ => proceeds_expression.bind fun _ =>
    proceeds_check (proceeds_failAt (Nat.le_refl _) _) fun _ => proceeds_u32.bind fun _ =>
      (proceeds_read (.bytes _) (Read.gives_bytes _)).bind fun _ => (proceeds_note _).bind fun _ =>
        proceeds_addField _

/-! ## The name section -/

theorem proceeds_functionName : Proceeds inside lo lo functionName :=
  proceeds_u32.bind fun _ => proceeds_name.bind fun _ => proceeds_pure _

theorem proceeds_localNames : Proceeds inside lo lo localNames :=
  proceeds_u32.bind fun _ => proceeds_u32.bind fun _ =>
    proceeds_times (proceeds_u32.bind fun _ => proceeds_name.bind fun _ => proceeds_pure _) _

/-- A part of the name section takes a byte at least. -/
theorem proceeds_nameSubsection : Proceeds inside lo (lo + 1) nameSubsection := by
  refine proceeds_byte_succ.bind fun id => proceeds_u32.bind fun size => proceeds_pos fun here => ?_
  dsimp only
  split
  · exact proceeds_name.bind fun value =>
      Proceeds.bind (proceeds_update (by exact fun _ => ⟨rfl, rfl, rfl⟩)) fun _ => proceeds_expectPosition _ _
  · split
    · refine proceeds_u32.bind fun count => Proceeds.bind ?_ fun _ => proceeds_expectPosition _ _
      exact proceeds_forEach
        (fun i => proceeds_functionName.bind fun name => proceeds_update (by exact fun _ => ⟨rfl, rfl, rfl⟩)) _ _
    · split
      · refine proceeds_u32.bind fun count => Proceeds.bind ?_ fun _ => proceeds_expectPosition _ _
        exact proceeds_forEach
          (fun i => proceeds_localNames.bind fun names => proceeds_update (by exact fun _ => ⟨rfl, rfl, rfl⟩)) _ _
      · exact (proceeds_skipTo _).bind fun _ => proceeds_expectPosition _ _

theorem proceeds_nameSubsections (stop fuel : Nat) : Proceeds inside lo lo (nameSubsections stop fuel) := by
  induction fuel generalizing lo with
  | zero => exact proceeds_pure ()
  | succ fuel ih =>
    rw [nameSubsections]
    refine proceeds_pos fun here => ?_
    split
    · exact (proceeds_nameSubsection.mono id (Nat.le_refl _) (Nat.le_add_right _ 1)).bind fun _ => ih
    · exact proceeds_pure ()

theorem proceeds_customSection (stop : Nat) : Proceeds inside lo lo (customSection stop) := by
  refine proceeds_name.bind fun name => proceeds_look fun d => ?_
  split
  · exact proceeds_look fun d => proceeds_nameSubsections _ _
  · exact (proceeds_note _).bind fun _ => proceeds_skipTo _

/-! ## Sections -/

theorem proceeds_vectorSection (id : SectionId) (count stop : Nat) :
    Proceeds inside lo lo (vectorSection id count stop) := by
  refine proceeds_look fun d => ?_
  cases id with
  | type => exact proceeds_forEach proceeds_typeEntry _ _
  | imports => exact proceeds_forEach proceeds_importEntry _ _
  | function => exact proceeds_forEach proceeds_functionEntry _ _
  | table => exact proceeds_forEach proceeds_tableEntry _ _
  | memory => exact proceeds_forEach proceeds_memoryEntry _ _
  | global => exact proceeds_forEach proceeds_globalEntry _ _
  | exports => exact proceeds_forEach proceeds_exportEntry _ _
  | element => exact proceeds_forEach proceeds_elementEntry _ _
  | code =>
    dsimp only
    split
    · exact proceeds_skipTo _
    · exact proceeds_forEach proceeds_codeEntry _ _
  | data =>
    dsimp only
    split
    · exact proceeds_skipTo _
    · exact proceeds_forEach proceeds_dataEntry _ _
  | custom => exact proceeds_pure ()
  | start => exact proceeds_pure ()

theorem proceeds_sectionBody (id : SectionId) (stop : Nat) :
    Proceeds inside lo lo (sectionBody id stop) := by
  have vector : Proceeds inside lo lo (do
      let count ← read .u32
      note s!"{count} entries"
      vectorSection id count stop
      pure count) :=
    proceeds_u32.bind fun count => (proceeds_note _).bind fun _ =>
      (proceeds_vectorSection id count stop).bind fun _ => proceeds_pure _
  unfold sectionBody
  split
  · exact (proceeds_customSection _).bind fun _ => proceeds_pure _
  · exact proceeds_startSection.bind fun _ => proceeds_pure _
  · exact vector

/-- The number of a section takes a byte. -/
theorem proceeds_sectionId : Proceeds False lo (lo + 1) sectionId := by
  refine proceeds_pos_add fun start => proceeds_byte_succ.bind fun byte => ?_
  cases SectionId.ofNat? byte.toNat with
  | none => exact proceeds_failAt (Nat.le_succ start) _
  | some id =>
    have listed : Proceeds False (start + 1) (start + 1) (do
        if id.toNat < (← get).nextSection then failAt start (.unexpectedSection byte.toNat)
        modify fun d => { d with nextSection := id.toNat + 1 }
        return id) :=
      proceeds_look fun d => proceeds_check (proceeds_failAt (Nat.le_succ start) _) fun _ =>
        Proceeds.bind (proceeds_modify (fun _ => rfl) nofun) fun _ => proceeds_pure _
    cases id with
    | custom => exact proceeds_pure _
    | _ => exact listed

theorem proceeds_readSection : Proceeds False lo (lo + 1) readSection := by
  refine proceeds_pos_add fun start => proceeds_sectionId.bind fun id => proceeds_u32.bind fun size =>
    proceeds_pos fun bodyStart => proceeds_look fun d => proceeds_check (proceeds_fail _) fun _ =>
      (proceeds_note _).bind fun _ => (proceeds_sectionBody _ _).bind fun count =>
        (proceeds_expectPosition _ _).bind fun _ => proceeds_modify (fun _ => rfl) nofun

theorem proceeds_readSections (fuel : Nat) : Proceeds False lo lo (readSections fuel) := by
  induction fuel generalizing lo with
  | zero => exact proceeds_pure ()
  | succ fuel ih =>
    rw [readSections]
    refine proceeds_look fun d => ?_
    split
    · exact (proceeds_readSection.mono id (Nat.le_refl _) (Nat.le_add_right _ 1)).bind fun _ => ih
    · exact proceeds_pure ()

/-- The magic bytes and the version take eight bytes. -/
theorem proceeds_header : Proceeds inside 0 8 header :=
  (proceeds_bytes 4).bind fun _ =>
    proceeds_check (proceeds_failAt (Nat.zero_le _) _) fun _ => (proceeds_note _).bind fun _ =>
      (proceeds_bytes 4).bind fun _ =>
        proceeds_check (proceeds_failAt (by omega) _) fun _ => proceeds_note _

/-- A module whose bodies do not go with its functions is refused where its sections end. -/
theorem offset_of_assemble {d : Decoder} {e : DecodeError} {fs : List DeclaredFunc}
    {code : List CodeEntry} {index : Nat} (fails : assemble d index fs code = .error e) :
    e.offset = d.reader.pos := by
  induction fs generalizing index code with
  | nil => cases fails
  | cons f fs ih =>
    have after {index' : Nat} {code' : List CodeEntry} {node : Node}
        (fails : (do return node :: (← assemble d index' fs code')) = .error e) :
        e.offset = d.reader.pos := by
      cases rest : assemble d index' fs code' with
      | ok nodes =>
        rw [rest] at fails
        cases fails
      | error x =>
        rw [rest] at fails
        cases fails
        exact ih rest
    unfold assemble at fails
    split_ifs at fails
    · exact ih fails
    · exact after fails
    · cases code with
      | nil =>
        cases fails
        rfl
      | cons entry code => exact after fails

theorem proceeds_module : Proceeds False 0 8 module := by
  refine proceeds_header.bind fun _ => proceeds_look fun _ => (proceeds_readSections _).bind fun _ =>
    proceeds_get fun d => ?_
  unfold finish
  cases assembled : assemble d 0 d.functions d.code with
  | ok funcs => exact proceeds_pure _
  | error e => exact proceeds_failAt (Nat.le_of_eq (offset_of_assemble assembled)) e.kind

end Decode

end Binary

end WasmEngine
