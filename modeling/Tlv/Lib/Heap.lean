import Tlv.Lib.Memory

/-!
# A heap of blocks, and programs that use it

Blocks are named by numbers that are never used twice, so a block that has been
released stays released: releasing it again, or storing into it, fails. A block
has a size, which no store may pass, and the bytes written to it so far (a fresh
block has none, so reading it before writing it fails).

`Prog ε α` is a program over the heap that returns a value or stops with an
error of type `ε`. A program that stops keeps the heap it stopped with, so that
one can speak about what it had done until then.
-/

namespace Lib

/-- A block of `size` bytes. -/
structure Block where
  size : Nat
  mem : Mem

/-- The live blocks, the next unused name, and the names of the released blocks
in the order of their release. -/
@[ext] structure Heap where
  cells : Nat → Option Block
  next : Nat
  released : List Nat
  fresh : ∀ i, next ≤ i → cells i = none

namespace Heap

def empty : Heap := ⟨fun _ => none, 0, [], fun _ _ => rfl⟩

/-- The heap with one more block, which is named `h.next`. -/
def new (h : Heap) (n : Nat) (m : Mem) : Heap where
  cells := fun j => if j = h.next then some ⟨n, m⟩ else h.cells j
  next := h.next + 1
  released := h.released
  fresh := fun i hi => by
    rw [if_neg (by omega)]
    exact h.fresh i (by omega)

/-- The heap without the block `i`. -/
def drop (h : Heap) (i : Nat) : Heap where
  cells := fun j => if j = i then none else h.cells j
  next := h.next
  released := h.released ++ [i]
  fresh := fun j hj => by
    split
    · rfl
    · exact h.fresh j hj

/-- The heap with other bytes in the block `i`. -/
def set (h : Heap) (i : Nat) (b : Block) : Heap where
  cells := fun j => if j = i ∧ i < h.next then some b else h.cells j
  next := h.next
  released := h.released
  fresh := fun j hj => by
    rw [if_neg (by omega)]
    exact h.fresh j hj

/-- Allocate `n` bytes that hold nothing yet. The block is named `h.next`. -/
def alloc (h : Heap) (n : Nat) : Heap := h.new n Mem.empty

/-- Release a live block. -/
def free (h : Heap) (i : Nat) : Option Heap :=
  if (h.cells i).isSome then some (h.drop i) else none

/-- Release a live block in exchange for a new one of `n` bytes, named `h.next`,
that starts with the bytes of the old one. -/
def realloc (h : Heap) (i n : Nat) : Option Heap :=
  (h.cells i).map fun b => (h.drop i).new n (b.mem.cut n)

/-- Write bytes into a live block, inside its size. -/
def store (h : Heap) (i off : Nat) (bs : List UInt8) : Option Heap :=
  (h.cells i).bind fun b =>
    if off + bs.length ≤ b.size then some (h.set i ⟨b.size, b.mem.write off bs⟩) else none

/-- The memory of a block; nothing can be read from a block that is not live. -/
def view (h : Heap) (i : Nat) : Mem :=
  match h.cells i with
  | some b => b.mem
  | none => Mem.empty

variable {h h' : Heap} {i j n : Nat} {m : Mem} {b : Block}

theorem lt_next_of_cells (hb : h.cells i = some b) : i < h.next := by
  rcases Nat.lt_or_ge i h.next with hlt | hge
  · exact hlt
  · rw [h.fresh i hge] at hb
    cases hb

@[simp] theorem new_cells (h : Heap) (n : Nat) (m : Mem) (j : Nat) :
    (h.new n m).cells j = if j = h.next then some ⟨n, m⟩ else h.cells j := rfl

@[simp] theorem new_next (h : Heap) (n : Nat) (m : Mem) : (h.new n m).next = h.next + 1 := rfl

@[simp] theorem drop_cells (h : Heap) (i j : Nat) :
    (h.drop i).cells j = if j = i then none else h.cells j := rfl

@[simp] theorem drop_next (h : Heap) (i : Nat) : (h.drop i).next = h.next := rfl

@[simp] theorem drop_released (h : Heap) (i : Nat) :
    (h.drop i).released = h.released ++ [i] := rfl

theorem free_of_live (hb : h.cells i = some b) : h.free i = some (h.drop i) := by
  simp [free, hb]

theorem realloc_of_live (hb : h.cells i = some b) :
    h.realloc i n = some ((h.drop i).new n (b.mem.cut n)) := by
  simp [realloc, hb]

/-- A store into the block allocated last stays in the description of that block. -/
theorem store_new {off : Nat} {bs : List UInt8} (hn : off + bs.length ≤ n) :
    (h.new n m).store h.next off bs = some (h.new n (m.write off bs)) := by
  have hcell : (h.new n m).cells h.next = some ⟨n, m⟩ := by simp
  rw [store, hcell, Option.bind_some, if_pos hn, Option.some.injEq]
  ext1
  · funext j
    show (if j = h.next ∧ h.next < h.next + 1 then some _ else (h.new n m).cells j) = _
    rw [new_cells, new_cells]
    by_cases hj : j = h.next
    · rw [if_pos ⟨hj, Nat.lt_succ_self _⟩, if_pos hj]
    · rw [if_neg (fun hc => hj hc.1), if_neg hj, if_neg hj]
  · rfl
  · rfl

theorem view_eq (hb : h.cells i = some b) : h.view i = b.mem := by
  rw [view, hb]

end Heap

/-! ## Programs -/

/-- A program over the heap that may stop with an error. -/
abbrev Prog (ε α : Type) := StateT Heap (Except (ε × Heap)) α

namespace Prog

variable {ε α β : Type} {h h' : Heap} {a : α} {x : Prog ε α} {f : α → Prog ε β}

/-- Stop with an error. -/
def stop (e : ε) : Prog ε α := fun h => .error (e, h)

@[simp] theorem pure_apply (a : α) (h : Heap) : (pure a : Prog ε α) h = .ok (a, h) := rfl

theorem bind_ok (hx : x h = .ok (a, h')) : (x >>= f) h = f a h' := by
  simp only [bind, StateT.bind, Except.bind, hx]

theorem bind_error {e : ε × Heap} (hx : x h = .error e) : (x >>= f) h = .error e := by
  simp only [bind, StateT.bind, Except.bind, hx]

/-- A sequence that returns: its first program returned, and so did its second. -/
theorem bind_eq_ok {r : β × Heap} :
    (x >>= f) h = .ok r ↔ ∃ a h', x h = .ok (a, h') ∧ f a h' = .ok r := by
  cases hx : x h with
  | error e => rw [bind_error hx]; simp
  | ok p =>
    obtain ⟨a, h'⟩ := p
    rw [bind_ok hx]
    constructor
    · intro hf
      exact ⟨a, h', rfl, hf⟩
    · rintro ⟨_, _, he, hf⟩
      cases he
      exact hf

/-- Sequences whose first programs do the same, and whose second programs do the same
behind them. -/
theorem bind_congr {y : Prog ε α} {g : α → Prog ε β} (hxy : x h = y h)
    (hfg : ∀ a h', y h = .ok (a, h') → f a h' = g a h') : (x >>= f) h = (y >>= g) h := by
  cases hy : y h with
  | error e => rw [bind_error hy, bind_error (hxy.trans hy)]
  | ok p => rw [bind_ok hy, bind_ok (hxy.trans hy), hfg p.1 p.2 hy]

/-- A sequence that stops: one of its programs did. -/
theorem bind_eq_error {e : ε × Heap} :
    (x >>= f) h = .error e ↔ x h = .error e ∨ ∃ a h', x h = .ok (a, h') ∧ f a h' = .error e := by
  cases hx : x h with
  | error e' => rw [bind_error hx]; simp
  | ok p =>
    obtain ⟨a, h'⟩ := p
    rw [bind_ok hx]
    constructor
    · intro hf
      exact .inr ⟨a, h', rfl, hf⟩
    · rintro (he | ⟨_, _, he, hf⟩)
      · cases he
      · cases he
        exact hf

end Prog

end Lib
