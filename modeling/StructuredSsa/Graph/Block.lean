import StructuredSsa.Bindings

/-!
# Basic blocks

A block lists its phis and its ordinary instructions, the edges on both sides,
the bindings at its two ends as far as they are recorded, and a pointer to its
immediate dominator.
-/

namespace StructuredSsa

/-- The parts a block can play in a method. -/
inductive BlockKind where
  /-- Where a method starts, with the values of its parameters. -/
  | entry (parameters : List ValueId)
  | plain
  /-- Where paths meet: behind an `if`, or the header of a loop. -/
  | join (isLoop : Bool)
  /-- Where a method ends. -/
  | exit
deriving Repr, DecidableEq

namespace BlockKind

/-- Only places where paths meet may hold phis. -/
def merges : BlockKind → Bool
  | join _ | exit => true
  | _ => false

/-- The word a kind of block is named by in listings. -/
def tag : BlockKind → String
  | entry _ => "entry"
  | plain => "block"
  | join true => "loop"
  | join false => "join"
  | exit => "exit"

end BlockKind

/-- A basic block. -/
structure Block where
  method : MethodId
  kind : BlockKind
  phis : List ValueId
  /-- The ordinary instructions, in order of execution. -/
  body : List ValueId
  /-- The blocks with an edge to this one, in the order they were linked. -/
  preds : List BlockId
  /-- The blocks this one has an edge to, in the order they were linked. -/
  succs : List BlockId
  /-- The bindings on entry. -/
  before : Option Bindings
  /-- The bindings on leaving; once recorded, the block is sealed. -/
  after : Option Bindings
  /-- The immediate dominator. -/
  dominator : Option BlockId
deriving Repr, DecidableEq

namespace Block

/-- A block with nothing in it. -/
def new (method : MethodId) (kind : BlockKind) : Block :=
  ⟨method, kind, [], [], [], [], none, none, none⟩

/-- Everything a block lists: phis, then ordinary instructions. -/
def contents (b : Block) : List ValueId := b.phis ++ b.body

def isEntry (b : Block) : Bool :=
  match b.kind with
  | .entry _ => true
  | _ => false

def isJoin (b : Block) : Bool :=
  match b.kind with
  | .join _ => true
  | _ => false

def isLoopHeader (b : Block) : Bool := b.kind == .join true

def isExit (b : Block) : Bool := b.kind == .exit

/-- A sealed block takes no more instructions at its end. -/
def isSealed (b : Block) : Bool := b.after.isSome

/-- Note an edge to `target`. -/
def addSucc (b : Block) (target : BlockId) : Block :=
  if target ∈ b.succs then b else { b with succs := b.succs ++ [target] }

/-- Note an edge from `source`. -/
def addPred (b : Block) (source : BlockId) : Block :=
  if source ∈ b.preds then b else { b with preds := b.preds ++ [source] }

def dropSucc (b : Block) (target : BlockId) : Block := { b with succs := b.succs.filter (· ≠ target) }

def dropPred (b : Block) (source : BlockId) : Block :=
  { b with preds := b.preds.filter (· ≠ source) }

@[simp] theorem mem_succs_addSucc (b : Block) (s target : BlockId) :
    s ∈ (b.addSucc target).succs ↔ s ∈ b.succs ∨ s = target := by
  unfold addSucc
  split <;> simp_all

@[simp] theorem mem_preds_addPred (b : Block) (q source : BlockId) :
    q ∈ (b.addPred source).preds ↔ q ∈ b.preds ∨ q = source := by
  unfold addPred
  split <;> simp_all

@[simp] theorem mem_succs_dropSucc (b : Block) (s target : BlockId) :
    s ∈ (b.dropSucc target).succs ↔ s ∈ b.succs ∧ s ≠ target := by
  simp [dropSucc]

@[simp] theorem mem_preds_dropPred (b : Block) (q source : BlockId) :
    q ∈ (b.dropPred source).preds ↔ q ∈ b.preds ∧ q ≠ source := by
  simp [dropPred]

/-- Let the recorded bindings hold `new` where they held `old`. -/
def substitute (b : Block) (old new : ValueId) : Block :=
  { b with
    before := b.before.map (·.substitute old new)
    after := b.after.map (·.substitute old new) }

/-- The name of a block in listings: its kind and number. -/
def label (b : Block) (id : BlockId) : String := b.kind.tag ++ toString id.index

end Block

end StructuredSsa
