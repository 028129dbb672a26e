import Mathlib.Tactic.Common
import WasmEngine.Proofs.Machine.Accesses

/-!
# Sizes of memories

Whatever is asked of a memory, it is a whole number of pages, no fewer than before and no more than its limit.
Growth is all or nothing.  A memory can be kept as one list of bytes with the number of pages beside it
(`CountedMemory`), in machine words: no sum, product or difference leaves its word, and the answers are the same.
-/

namespace WasmEngine

namespace Memory

/-! ## The bytes of a memory in order -/

/-- All bytes of a memory. -/
def bytes (m : Memory) : List UInt8 := m.content.toList.flatMap Vector.toList

/-- Pages have 65536 bytes each. -/
theorem length_flatMap_pages (pages : List Page) :
    (pages.flatMap Vector.toList).length = pages.length * pageSize := by
  induction pages with
  | nil => rfl
  | cons page pages ih =>
    rw [List.flatMap_cons, List.length_append, ih, Vector.length_toList, List.length_cons, Nat.succ_mul,
      Nat.add_comm]

/-- A memory has as many bytes as its size says. -/
theorem length_bytes (m : Memory) : m.bytes.length = m.size := by
  rw [bytes, length_flatMap_pages, Array.length_toList, size, pages]

/-- Byte `k` is byte `k % 65536` of page `k / 65536`. -/
theorem getElem?_flatMap_pages (pages : List Page) (k : Nat) :
    (pages.flatMap Vector.toList)[k]? = pages[k / pageSize]?.bind fun page => page[k % pageSize]? := by
  induction pages generalizing k with
  | nil => rfl
  | cons page pages ih =>
    rw [List.flatMap_cons, List.getElem?_append, Vector.length_toList]
    split_ifs with first
    · rw [Nat.div_eq_of_lt first, Nat.mod_eq_of_lt first, Vector.getElem?_toList]
      rfl
    · obtain ⟨n, rfl⟩ := Nat.exists_eq_add_of_le (Nat.le_of_not_lt first)
      rw [Nat.add_sub_cancel_left, ih, Nat.add_div_left n (by decide), Nat.add_mod_left, List.getElem?_cons_succ]

/-- The bytes of a memory are those its addresses hold. -/
theorem getElem?_bytes (m : Memory) (k : Nat) : m.bytes[k]? = m.byte? k := by
  rw [bytes, getElem?_flatMap_pages, byte?, Array.getElem?_toList]

/-- A new memory is filled with zeros. -/
theorem bytes_zeros (count : Nat) (max : Option Nat) :
    bytes ⟨zeros count, max⟩ = List.replicate (count * pageSize) 0 := by
  induction count with
  | zero => rfl
  | succ count ih =>
    have page : zeroPage.toList = List.replicate pageSize 0 := Vector.toList_replicate
    rw [bytes, zeros, Array.toList_replicate] at ih ⊢
    rw [List.replicate_succ, List.flatMap_cons, ih, page, List.replicate_append_replicate, Nat.succ_mul,
      Nat.add_comm]

/-- Growing appends zeros. -/
theorem bytes_append (m : Memory) (count : Nat) :
    bytes { m with content := m.content ++ zeros count } = m.bytes ++ List.replicate (count * pageSize) 0 := by
  have more := bytes_zeros count m.max
  rw [bytes] at more
  rw [bytes, bytes, Array.toList_append, List.flatMap_append, more]

/-- A write replaces the bytes at its address and nothing else. -/
theorem bytes_put (m : Memory) (a : Nat) (bs : List UInt8) (fits : a + bs.length ≤ m.size) :
    (m.put a bs).bytes = m.bytes.take a ++ bs ++ m.bytes.drop (a + bs.length) := by
  have prior : (m.bytes.take a).length = a := by
    rw [List.length_take, length_bytes]
    omega
  refine List.ext_getElem? fun k => ?_
  rw [getElem?_bytes, byte?_put m a bs fits, List.append_assoc, List.getElem?_append, prior, List.getElem?_append]
  by_cases before : k < a
  · rw [if_neg (by omega), if_pos before, List.getElem?_take_of_lt before, getElem?_bytes]
  · by_cases within : k < a + bs.length
    · rw [if_pos ⟨by omega, within⟩, if_neg before, if_pos (by omega)]
    · rw [if_neg (by omega), if_neg before, if_neg (by omega), List.getElem?_drop, getElem?_bytes]
      congr 1
      omega

/-- A read gives the bytes at its address if they are all there, and traps otherwise. -/
theorem read_eq (m : Memory) (a n : Nat) : m.read a n =
    if a + n ≤ m.size then .ok ((m.bytes.drop a).take n) else .error (.trap .outOfBounds) := by
  rw [read]
  simp only [contains_iff]
  split_ifs with fits
  · have length : ((m.bytes.drop a).take n).length = n := by
      rw [List.length_take, List.length_drop, length_bytes]
      omega
    have listed := filterMap_range' ((m.bytes.drop a).take n) a (f := m.byte?) fun k within => by
      rw [length] at within
      rw [List.getElem?_take_of_lt within, List.getElem?_drop, getElem?_bytes]
    rw [length] at listed
    rw [listed]
  · rfl

/-! ## Requests -/

/-- What is asked of a memory.  A request to grow says whether the allocator would grant the bytes. -/
inductive Request where
  | grow (delta : Nat) (granted : Bool)
  | read (address length : Nat)
  | write (address : Nat) (bytes : List UInt8)

/-- What is answered. -/
inductive Answer where
  | pages (previous : Int)
  | bytes (bytes : List UInt8)
  | done
  | fault (e : Fault)

/-- The answer of a memory to a request, and the memory that is left. -/
def answer (m : Memory) : Request → Answer × Memory
  | .grow delta true => (.pages (m.grow delta).1, (m.grow delta).2)
  | .grow _ false => (.pages (-1), m)
  | .read address length =>
    match m.read address length with
    | .ok bs => (.bytes bs, m)
    | .error e => (.fault e, m)
  | .write address bs =>
    match m.write address bs with
    | .ok m' => (.done, m')
    | .error e => (.fault e, m)

/-- The answers to requests in turn, and the memory that is left. -/
def serve (m : Memory) : List Request → List Answer × Memory
  | [] => ([], m)
  | request :: requests =>
    let (first, m) := m.answer request
    let (others, m) := m.serve requests
    (first :: others, m)

end Memory

/-! ## A memory in machine words -/

/-- The sum, if it is below a bound. -/
def sum? (bound a b : Nat) : Option Nat := if a + b < bound then some (a + b) else none

/-- The product, if it fits in 64 bits. -/
def product? (a b : Nat) : Option Nat := if a * b < UInt64.size then some (a * b) else none

/-- The difference, unless it is negative. -/
def difference? (a b : Nat) : Option Nat := if b ≤ a then some (a - b) else none

/-- A memory as a list of bytes, with the number of its pages beside it. -/
structure CountedMemory where
  data : List UInt8
  pages : Nat
  max : Option Nat

namespace CountedMemory

open Memory

/-- A memory of zeros, if its limits are in order.  There is none if the arithmetic leaves its words, here and
in the other operations. -/
def create (limits : Limits) : Option (Except Fault CountedMemory) :=
  if maxPages < limits.min then some (.error (.size (.initialAboveLimit limits.min maxPages)))
  else
    match limits.max with
    | none => do
      let length ← product? limits.min pageSize
      some (.ok ⟨List.replicate length 0, limits.min, none⟩)
    | some m =>
      if m < limits.min then some (.error (.size (.initialAboveMaximum limits.min m)))
      else if maxPages < m then some (.error (.size (.maximumAboveLimit m maxPages)))
      else do
        let length ← product? limits.min pageSize
        some (.ok ⟨List.replicate length 0, limits.min, some m⟩)

/-- Grows a memory if the allocator grants the bytes that are missing.  The former number of pages is given as
a number of 32 bits with a sign. -/
def grow (c : CountedMemory) (delta : Nat) (granted : Bool) : Option (Int × CountedMemory) :=
  match sum? UInt32.size c.pages delta with
  | none => some (-1, c)
  | some pages =>
    if c.max.getD maxPages < pages then some (-1, c)
    else do
      let length ← product? pages pageSize
      let missing ← difference? length c.data.length
      if granted then
        some (Int.bmod c.pages UInt32.size, ⟨c.data ++ List.replicate missing 0, pages, c.max⟩)
      else some (-1, c)

/-- Whether a range lies in the memory.  Its end may leave 64 bits. -/
def contains (c : CountedMemory) (address length : Nat) : Bool :=
  match sum? UInt64.size address length with
  | none => false
  | some stop => stop ≤ c.data.length

/-- The answer to a request, and the memory that is left. -/
def answer (c : CountedMemory) : Request → Option (Answer × CountedMemory)
  | .grow delta granted => do
    let (previous, c) ← c.grow delta granted
    some (.pages previous, c)
  | .read address length =>
    if c.contains address length then some (.bytes ((c.data.drop address).take length), c)
    else some (.fault (.trap .outOfBounds), c)
  | .write address bs =>
    if c.contains address bs.length then
      some (.done, { c with data := c.data.take address ++ bs ++ c.data.drop (address + bs.length) })
    else some (.fault (.trap .outOfBounds), c)

/-- The answers to requests in turn, and the memory that is left. -/
def serve (c : CountedMemory) : List Request → Option (List Answer × CountedMemory)
  | [] => some ([], c)
  | request :: requests => do
    let (first, c) ← c.answer request
    let (others, c) ← c.serve requests
    some (first :: others, c)

/-- The bytes, the number of pages and the maximum are those of a memory. -/
structure Counts (c : CountedMemory) (m : Memory) : Prop where
  data : c.data = m.bytes
  pages : c.pages = m.pages
  max : c.max = m.max

end CountedMemory

/-! ## What requests keep -/

/-- A memory has no more pages than its limit, which is no greater than that of all memories. -/
structure Memory.Bounded (m : Memory) : Prop where
  pages_le : m.pages ≤ m.limit
  limit_le : m.limit ≤ maxPages

namespace Memory

variable {m : Memory}

/-- A memory grows by all pages that it is asked for, or stays as it is. -/
theorem grow_eq (m : Memory) (delta : Nat) : m.grow delta =
    if m.pages + delta ≤ m.limit then ((m.pages : Int), { m with content := m.content ++ zeros delta })
    else (-1, m) := by
  unfold grow grow?
  split_ifs <;> rfl

/-- Growing adds its pages to the count. -/
theorem pages_append (m : Memory) (count : Nat) :
    pages { m with content := m.content ++ zeros count } = m.pages + count := by
  simp [pages, zeros]

/-- A memory is created within its limits, with the pages of its minimum, all zero. -/
theorem bounded_of_create {limits : Limits} (created : create limits = .ok m) :
    m.Bounded ∧ m.max = limits.max ∧ m.pages = limits.min ∧ m.bytes = List.replicate (limits.min * pageSize) 0 := by
  have made : ∀ max : Option Nat, pages ⟨zeros limits.min, max⟩ = limits.min := fun max => by
    simp [pages, zeros]
  unfold create at created
  split_ifs at created with above
  split at created
  · next none =>
    cases created
    refine ⟨⟨?_, Nat.le_refl _⟩, none.symm, made _, bytes_zeros _ _⟩
    rw [made]
    exact Nat.le_of_not_lt above
  · next max some =>
    split_ifs at created with small great
    cases created
    refine ⟨⟨?_, Nat.le_of_not_lt great⟩, some.symm, made _, bytes_zeros _ _⟩
    rw [made]
    exact Nat.le_of_not_lt small

/-- A request leaves the maximum as it is, takes no page away and keeps the bounds. -/
theorem bounded_answer (bounded : m.Bounded) (request : Request) : (m.answer request).2.Bounded ∧
    (m.answer request).2.max = m.max ∧ m.pages ≤ (m.answer request).2.pages := by
  have same : m.Bounded ∧ m.max = m.max ∧ m.pages ≤ m.pages := ⟨bounded, rfl, Nat.le_refl _⟩
  cases request with
  | grow delta granted =>
    cases granted with
    | false => exact same
    | true =>
      rw [answer, grow_eq]
      split_ifs with fits
      · have pages := pages_append m delta
        exact ⟨⟨by rwa [pages], bounded.limit_le⟩, rfl, by rw [pages]; exact Nat.le_add_right _ _⟩
      · exact same
  | read address length =>
    rw [answer]
    split <;> exact same
  | write address bs =>
    rw [answer, write]
    split_ifs with fits
    · have pages := m.pages_put address bs
      have max := m.max_put address bs
      refine ⟨⟨?_, ?_⟩, max, Nat.le_of_eq pages.symm⟩
      · rw [limit, max, pages]
        exact bounded.pages_le
      · rw [limit, max]
        exact bounded.limit_le
    · exact same

/-- Any sequence of requests keeps a memory within its limits and never shrinks it. -/
theorem bounded_serve (bounded : m.Bounded) (requests : List Request) : (m.serve requests).2.Bounded ∧
    (m.serve requests).2.max = m.max ∧ m.pages ≤ (m.serve requests).2.pages := by
  induction requests generalizing m with
  | nil => exact ⟨bounded, rfl, Nat.le_refl _⟩
  | cons request requests ih =>
    obtain ⟨next, max, more⟩ := bounded_answer bounded request
    obtain ⟨last, max', more'⟩ := ih next
    exact ⟨last, max'.trans max, Nat.le_trans more more'⟩

end Memory

namespace CountedMemory

open Memory

variable {c : CountedMemory} {m : Memory}

/-- The 32-bit bounds check agrees with the exact one. -/
theorem contains_eq (counts : c.Counts m) (bounded : m.Bounded) (address length : Nat) :
    c.contains address length = m.contains address length := by
  have size : m.size ≤ maxPages * pageSize := Nat.mul_le_mul_right _ (Nat.le_trans bounded.pages_le bounded.limit_le)
  rw [maxPages, pageSize] at size
  unfold contains sum?
  rw [UInt64.size, counts.data, length_bytes]
  split_ifs with small
  · rfl
  · have outside : ¬ address + length ≤ m.size := by omega
    exact (decide_eq_false outside).symm

/-- Growing a memory in machine words: nothing overflows, and the outcome is the same. -/
theorem exists_grow (counts : c.Counts m) (bounded : m.Bounded) (delta : Nat) (granted : Bool) :
    ∃ c', c.grow delta granted =
        some (if granted then (m.grow delta).1 else -1, c') ∧
      c'.Counts (if granted then (m.grow delta).2 else m) := by
  have small : m.pages ≤ 65536 := Nat.le_trans bounded.pages_le bounded.limit_le
  have limit : m.limit ≤ 65536 := bounded.limit_le
  have signed : Int.bmod m.pages UInt32.size = m.pages := by
    rw [UInt32.size, Int.bmod_eq_of_le] <;> omega
  have refused : ∃ c', some ((-1 : Int), c) = some (if granted then (-1 : Int) else -1, c') ∧
      c'.Counts (if granted then m else m) := by
    cases granted <;> exact ⟨c, rfl, counts⟩
  have cap : m.max.getD maxPages = m.limit := rfl
  unfold grow sum?
  rw [counts.pages, counts.max, grow_eq]
  by_cases fits : m.pages + delta ≤ m.limit
  · have length : product? (m.pages + delta) pageSize = some ((m.pages + delta) * pageSize) := by
      rw [product?, if_pos]
      rw [UInt64.size, pageSize]
      omega
    have missing : difference? ((m.pages + delta) * pageSize) c.data.length = some (delta * pageSize) := by
      have size : c.data.length = m.pages * pageSize := by rw [counts.data, length_bytes, Memory.size]
      rw [difference?, size, if_pos (by rw [pageSize]; omega), Nat.add_mul, Nat.add_sub_cancel_left]
    rw [if_pos (show m.pages + delta < UInt32.size by rw [UInt32.size]; omega)]
    dsimp only
    rw [cap, if_neg (Nat.not_lt_of_le fits), if_pos fits, length, Option.bind_eq_bind, Option.bind_some, missing,
      Option.bind_some, signed]
    cases granted with
    | false => exact ⟨c, rfl, counts⟩
    | true =>
      refine ⟨_, rfl, ?_, (pages_append m delta).symm, rfl⟩
      dsimp only
      rw [counts.data]
      exact (bytes_append m delta).symm
  · rw [if_neg fits]
    by_cases word : m.pages + delta < UInt32.size
    · rw [if_pos word]
      dsimp only
      rw [cap, if_pos (Nat.lt_of_not_le fits)]
      exact refused
    · rw [if_neg word]
      exact refused

/-- Counted memory answers each request as the exact memory does. -/
theorem exists_answer (counts : c.Counts m) (bounded : m.Bounded) (request : Request) :
    ∃ c', c.answer request = some ((m.answer request).1, c') ∧ c'.Counts (m.answer request).2 := by
  cases request with
  | grow delta granted =>
    obtain ⟨c', grown, counts'⟩ := exists_grow counts bounded delta granted
    rw [CountedMemory.answer, grown]
    cases granted <;> exact ⟨c', rfl, counts'⟩
  | read address length =>
    rw [CountedMemory.answer, contains_eq counts bounded, Memory.answer, read_eq, counts.data]
    simp only [contains_iff]
    split_ifs <;> exact ⟨c, rfl, counts⟩
  | write address bs =>
    rw [CountedMemory.answer, contains_eq counts bounded, Memory.answer, write, counts.data]
    split_ifs with fits
    · exact ⟨_, rfl, (m.bytes_put address bs (contains_iff.1 fits)).symm,
        counts.pages.trans (m.pages_put address bs).symm, counts.max.trans (m.max_put address bs).symm⟩
    · exact ⟨c, rfl, counts⟩

/-- Counted memory answers any sequence of requests as the exact memory does. -/
theorem exists_serve (counts : c.Counts m) (bounded : m.Bounded) (requests : List Request) :
    ∃ c', c.serve requests = some ((m.serve requests).1, c') ∧ c'.Counts (m.serve requests).2 := by
  induction requests generalizing c m with
  | nil => exact ⟨c, rfl, counts⟩
  | cons request requests ih =>
    obtain ⟨next, first, counts'⟩ := exists_answer counts bounded request
    obtain ⟨last, others, counts''⟩ := ih counts' (bounded_answer bounded request).1
    refine ⟨last, ?_, counts''⟩
    rw [CountedMemory.serve, first, Option.bind_eq_bind, Option.bind_some]
    dsimp only
    rw [others]
    rfl

/-- Counted memory is created wherever the exact memory is, with the same counts. -/
theorem exists_create {limits : Limits} (created : Memory.create limits = .ok m) :
    ∃ c, create limits = some (.ok c) ∧ c.Counts m := by
  obtain ⟨-, max, pages, bytes⟩ := bounded_of_create created
  have small : ¬ maxPages < limits.min := by
    intro above
    rw [Memory.create, if_pos above] at created
    cases created
  have length : product? limits.min pageSize = some (limits.min * pageSize) := by
    rw [maxPages] at small
    rw [product?, if_pos]
    rw [UInt64.size, pageSize]
    omega
  rw [Memory.create, if_neg small] at created
  rw [create, if_neg small, length]
  cases known : limits.max with
  | none => exact ⟨_, rfl, bytes.symm, pages.symm, (max.trans known).symm⟩
  | some n =>
    rw [known] at created
    dsimp only at created ⊢
    split_ifs at created ⊢
    exact ⟨_, rfl, bytes.symm, pages.symm, (max.trans known).symm⟩

end CountedMemory

namespace Memory

/-- Whatever was asked of a memory, it has as many bytes as its pages, no more pages than its limit, and no
request takes one away.  It grows by all that it is asked for, with zeros, just if the allocator grants it and
the number of pages stays in 32 bits and within the limit, and is left as it is otherwise.  In machine words
nothing overflows on the way, and the answers and the memory are the same. -/
theorem sizes_of_create {limits : Limits} {m : Memory} (created : create limits = .ok m) (requests : List Request) :
    let n := (m.serve requests).2
    n.bytes.length = n.pages * 65536 ∧ n.pages ≤ limits.max.getD 65536 ∧ n.max = limits.max ∧
    (∀ request, n.pages ≤ (n.answer request).2.pages) ∧
    (∀ delta granted,
      if granted = true ∧ n.pages + delta < UInt32.size ∧ n.pages + delta ≤ limits.max.getD 65536 then
        ∃ grown, n.answer (.grow delta granted) = (.pages n.pages, grown) ∧ grown.pages = n.pages + delta ∧
          grown.bytes = n.bytes ++ List.replicate (delta * 65536) 0 ∧ grown.max = n.max
      else n.answer (.grow delta granted) = (.pages (-1), n)) ∧
    ∃ c c', CountedMemory.create limits = some (.ok c) ∧
      c.serve requests = some ((m.serve requests).1, c') ∧ c'.Counts n := by
  intro n
  obtain ⟨bounded, max, -, -⟩ := bounded_of_create created
  obtain ⟨bounded', max', -⟩ := bounded_serve bounded requests
  have known : n.max = limits.max := max'.trans max
  have limit : n.limit = limits.max.getD 65536 := by rw [Memory.limit, known, maxPages]
  have within : n.pages ≤ limits.max.getD 65536 := limit ▸ bounded'.pages_le
  refine ⟨n.length_bytes, within, known, fun request => (bounded_answer bounded' request).2.2,
    fun delta granted => ?_, ?_⟩
  · have word : n.pages + delta ≤ n.limit → n.pages + delta < UInt32.size := by
      have small : n.limit ≤ 65536 := bounded'.limit_le
      rw [UInt32.size]
      omega
    cases granted with
    | false =>
      rw [if_neg fun granted => Bool.noConfusion granted.1]
      rfl
    | true =>
      rw [answer, grow_eq, ← limit]
      by_cases fits : n.pages + delta ≤ n.limit
      · rw [if_pos ⟨rfl, word fits, fits⟩, if_pos fits]
        exact ⟨_, rfl, pages_append n delta, bytes_append n delta, rfl⟩
      · rw [if_neg fun all => fits all.2.2, if_neg fits]
  · obtain ⟨c, made, counts⟩ := CountedMemory.exists_create created
    obtain ⟨c', served, counts'⟩ := CountedMemory.exists_serve counts bounded requests
    exact ⟨c, c', made, served, counts'⟩

theorem sizes_of_create_growing : ∃ m, create ⟨1, some 3⟩ = .ok m ∧
    (m.serve [.grow 1 true, .write 65536 [7], .grow 1 false, .grow 2 true]).2.pages ≤ 3 ∧
    ∃ c c', CountedMemory.create ⟨1, some 3⟩ = some (.ok c) ∧
      c.serve [.grow 1 true, .write 65536 [7], .grow 1 false, .grow 2 true] =
        some ((m.serve [.grow 1 true, .write 65536 [7], .grow 1 false, .grow 2 true]).1, c') ∧
      c'.Counts (m.serve [.grow 1 true, .write 65536 [7], .grow 1 false, .grow 2 true]).2 := by
  have created : create ⟨1, some 3⟩ = .ok ⟨zeros 1, some 3⟩ := rfl
  obtain ⟨-, within, -, -, -, counted⟩ := sizes_of_create created
    [.grow 1 true, .write 65536 [7], .grow 1 false, .grow 2 true]
  exact ⟨_, created, within, counted⟩

end Memory

end WasmEngine
