import ByteSchema.Length

/-!
# Items one after the other

What arrays and maps have in common: the items of the one and the pairs of the other are written
behind their count and read back in order.  How a single item is sized, written or read is left to
a parameter.
-/
namespace ByteSchema.Items

variable {α : Type}

/-- The size of a pair whose parts have these sizes. -/
def pairSize (first second : Outcome Size) : Outcome Size := do
  let sum ← (Size.fixed 0).add (← first)
  sum.add (← second)

def size (length : Length) (item : Size) : Size :=
  match length with
  | .fixed n => item.times n
  | _ => .varying

/-- Items that take no byte need a fixed count, or a header could announce any number of them; and
a fixed number of items of one size has to fit into memory. -/
def validate (length : Length) (item : Size) : Outcome Unit :=
  match length, item with
  | .fixed n, .fixed size =>
    if n * size < addressSpace then .ok () else Outcome.abort (.arrayTooLarge n size)
  | _, .fixed 0 => Outcome.abort .zeroSizeItems
  | _, _ => .ok ()

/-- Items of one size are counted and not looked at; `add` adds one other item to a sum. -/
def encodeSize (length : Length) (item : Outcome Size) (add : Nat → α → Outcome Nat)
    (items : List α) : Outcome Nat := do
  let count ← length.countSize items.length
  match ← item with
  | .fixed n => checkedAdd count (← checkedMul n items.length)
  | .varying => items.foldlM add count

/-- `item` writes one item at an offset and answers where it ends. -/
def write (length : Length) (item : Nat → α → Writing Nat) (items : List α) (offset : Nat) :
    Writing Nat := do
  let start ← length.writeCount items.length offset
  items.foldlM item start

/-- Without a count the items go on to the end of the input, which has to be a whole number of items
where they all have one size.  With a count their size only tells how many of them there is room
for: it is asked for, and has no say in the answer. -/
def read (length : Length) (limit : Limit) (size : Outcome Size) (item : Nat → Reading (α × Nat))
    (bytes : Bytes) (offset : Nat) : Reading (List α × Nat) := do
  let (count, start) ← length.readCount limit bytes offset
  match count with
  | some n =>
    let _ ← size
    Reading.times item n start
  | none =>
    let rest ← bytes.rest start
    match ← size with
    | .fixed n =>
      if 0 < n ∧ rest.size % n ≠ 0 then Reading.fail (.misaligned rest.size n)
      else Reading.toEnd item bytes.size start
    | .varying => Reading.toEnd item bytes.size start

end ByteSchema.Items
