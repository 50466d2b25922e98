import Std.Data.String.ToInt
import StructuredSsa.Proofs.Tiling
import StructuredSsa.Print.Listing

/-!
# What the line of an instruction tells

The words of a line are its longest stretches of letters, digits and minus signs.
They are the handle, the mnemonic and the operands of the instruction (`words_line`),
and no two instructions share them (`Op.words_injective`). So the line of an
instruction determines it (`instrLine_unambiguous`).
-/

namespace StructuredSsa

namespace Listing

/-- The characters of words. -/
def inWord (c : Char) : Bool := c.isAlphanum || c == '-'

/-- The words of a text. -/
def words (s : String) : List String :=
  ((s.toList.splitOnP (!inWord ·)).filter (· ≠ [])).map String.ofList

/-- Whether a text is one word. -/
def isWord (s : String) : Bool := s != "" && s.toList.all inWord

/-- Whether a text stands between words. -/
def isGap (s : String) : Bool := s != "" && s.toList.all (!inWord ·)

theorem words_of_isWord {s : String} (h : isWord s = true) : words s = [s] := by
  obtain ⟨hne, hall⟩ : s ≠ "" ∧ ∀ c ∈ s.toList, inWord c = true := by simpa [isWord] using h
  simp [words, List.splitOnP_eq_singleton (p := (!inWord ·)) (by simpa using hall), hne]

theorem words_append_cons (a b : List Char) {d : Char} (h : inWord d = false) :
    words (String.ofList (a ++ d :: b)) = words (String.ofList a) ++ words (String.ofList b) := by
  have hd : (!inWord d) = true := by simp [h]
  simp [words, List.splitOnP_append_cons (p := (!inWord ·)) a b hd]

theorem words_between {g : String} (h : isGap g = true) (a b : String) :
    words (a ++ g ++ b) = words a ++ words b := by
  have hskip (ds : List Char) (hds : ∀ d ∈ ds, inWord d = false) :
      words (String.ofList (ds ++ b.toList)) = words b := by
    induction ds with
    | nil => simp
    | cons d ds ih =>
        rw [List.forall_mem_cons] at hds
        rw [← ih hds.2]
        exact words_append_cons [] _ hds.1
  obtain ⟨hne, hgap⟩ : g ≠ "" ∧ ∀ c ∈ g.toList, inWord c = false := by simpa [isGap] using h
  obtain ⟨d, ds, hcs⟩ := List.exists_cons_of_ne_nil (mt String.toList_eq_nil_iff.1 hne)
  rw [hcs, List.forall_mem_cons] at hgap
  have htext : a ++ g ++ b = String.ofList (a.toList ++ d :: (ds ++ b.toList)) := by
    rw [← String.toList_inj]
    simp [hcs]
  rw [htext, words_append_cons _ _ hgap.1, hskip ds hgap.2, String.ofList_toList]

theorem words_opening {a : String} (h : a.toList.getLast?.any (!inWord ·) = true) (b : String) :
    words (a ++ b) = words a ++ words b := by
  obtain ⟨d, hlast, hd⟩ := (Option.any_eq_true ..).1 h
  obtain ⟨cs, hcs⟩ := List.getLast?_eq_some_iff.1 hlast
  have htext (e : String) : a ++ e = String.ofList (cs ++ d :: e.toList) := by
    rw [← String.toList_inj]
    simp [hcs]
  have hwords (e : String) : words (a ++ e) = words (String.ofList cs) ++ words e := by
    rw [htext, words_append_cons _ _ (by simpa using hd), String.ofList_toList]
  have ha : words a = words (String.ofList cs) := by simpa [words] using hwords ""
  rw [hwords, ha]

theorem words_closing {g : String} (h : isGap g = true) (a : String) :
    words (a ++ g) = words a := by
  simpa [words] using words_between h a ""

theorem words_intercalate {g : String} (h : isGap g = true) :
    ∀ l : List String, words (g.intercalate l) = l.flatMap words
  | [] => rfl
  | [s] => by simp
  | s :: t :: l => by
      rw [String.intercalate_cons_cons, words_between h, words_intercalate h (t :: l)]
      rfl

/-! ## What is one word -/

theorem isWord_append {s t : String} (hs : isWord s = true) (ht : isWord t = true) :
    isWord (s ++ t) = true := by
  simp_all [isWord]

theorem isWord_name {x : String} (h : Segment.IsWord x.toList) : isWord x = true := by
  cases hx : x.toList with
  | nil => simp [hx, Segment.IsWord] at h
  | cons c cs =>
      have hne : x ≠ "" := by
        rintro rfl
        cases hx
      rw [hx] at h
      have hc : inWord c = true := by simp [inWord, Char.isAlphanum, h.1]
      have hcs : ∀ d ∈ cs, inWord d = true := fun d hd => by simp [inWord, h.2 d hd]
      simpa [isWord, hne, hx, hc] using hcs

theorem isWord_nat (n : Nat) : isWord n.repr = true := by
  have hdigits (c : Char) (hc : c ∈ Nat.toDigits 10 n) : inWord c = true := by
    simp [inWord, Char.isAlphanum, Nat.isDigit_of_mem_toDigits (by decide) (by decide) hc]
  rw [← Nat.toString_eq_repr, Nat.toString_eq_ofList_toDigits]
  simpa [isWord, Nat.toDigits_ne_nil] using hdigits

theorem isWord_int (n : Int) : isWord n.repr = true := by
  rw [Int.repr_eq_if]
  split
  · exact isWord_nat _
  · exact isWord_append (by decide) (isWord_nat _)

theorem isWord_value (v : ValueId) : isWord v.text = true :=
  isWord_append (by decide) (isWord_nat _)

theorem isWord_block (b : BlockId) : isWord b.text = true :=
  isWord_append (by decide) (isWord_nat _)

end Listing

@[simp] theorem ValueId.text_inj {v w : ValueId} : v.text = w.text ↔ v = w := by
  cases v
  cases w
  simp [ValueId.text]

@[simp] theorem BlockId.text_inj {a b : BlockId} : a.text = b.text ↔ a = b := by
  cases a
  cases b
  simp [BlockId.text]

namespace Op

open Listing

/-- The names in an instruction. -/
def names : Op → List String
  | param x _ | phi x _ | loadGlobal x | storeGlobal x _ | declareArray x _ | arrayBase x
  | call x _ => [x]
  | _ => []

/-- The mnemonic of an instruction and its operands. -/
def words : Op → List String
  | const n => ["const", n.toInt.repr]
  | param x place => ["param", place.repr, x]
  | phi x operands => "phi" :: x :: operands.flatMap fun o => [o.1.text, o.2.text]
  | arith op lhs rhs => [op.mnemonic, lhs.text, rhs.text]
  | compare op lhs rhs => ["cmp", op.mnemonic, lhs.text, rhs.text]
  | loadGlobal x => ["ldg", x]
  | storeGlobal x value => ["stg", x, value.text]
  | declareArray x sizes => "array" :: x :: sizes.map fun n => n.toInt.repr
  | arrayBase x => ["base", x]
  | index base offset => ["adda", base.text, offset.text]
  | load address => ["load", address.text]
  | store address value => ["store", address.text, value.text]
  | call x arguments => "call" :: x :: arguments.map ValueId.text
  | read => ["read"]
  | write value => ["write", value.text]
  | writeLine => ["writeNL"]
  | branch condition onTrue onFalse => ["br", condition.text, onTrue.text, onFalse.text]
  | jump target => ["bra", target.text]
  | ret value => "ret" :: value.toList.map ValueId.text

theorem words_phiOperand (o : BlockId × ValueId) :
    Listing.words (phiOperandText o) = [o.1.text, o.2.text] := by
  have hopening := words_between (g := "[") (by decide) "" o.1.text
  rw [String.empty_append, words_of_isWord (isWord_block _)] at hopening
  rw [phiOperandText, words_closing (by decide), words_between (by decide), hopening,
    words_of_isWord (isWord_value _)]
  rfl

/-- The sizes of an array, behind its name. -/
theorem words_sizes (a : String) (sizes : List Int64) :
    Listing.words (a ++ String.join (sizes.map fun n => "[" ++ toString n.toInt ++ "]"))
      = Listing.words a ++ sizes.map fun n => n.toInt.repr := by
  induction sizes generalizing a with
  | nil => simp
  | cons n sizes ih =>
      rw [List.map_cons, String.join_cons, ← String.append_assoc, ih, ← String.append_assoc,
        words_closing (by decide), ← String.append_assoc, words_between (by decide),
        Int.toString_eq_repr, words_of_isWord (isWord_int _)]
      simp

theorem words_text {op : Op} (h : ∀ x ∈ op.names, Segment.IsWord x.toList) :
    Listing.words op.text = op.words := by
  have hname (x : String) (hx : x ∈ op.names) := words_of_isWord (isWord_name (h x hx))
  have hspace (a b : String) : Listing.words (a ++ " " ++ b) = Listing.words a ++ Listing.words b :=
    words_between (by decide) a b
  have hint (n : Int) := words_of_isWord (isWord_int n)
  have hnat (n : Nat) := words_of_isWord (isWord_nat n)
  have hvalue (v : ValueId) := words_of_isWord (isWord_value v)
  have hblock (b : BlockId) := words_of_isWord (isWord_block b)
  cases op
  all_goals simp only [names, List.mem_singleton, forall_eq, List.not_mem_nil] at hname
  case read | writeLine => decide
  case arith op _ _ =>
    have hop : Listing.words op.mnemonic = [op.mnemonic] := by cases op <;> decide
    simp [text, words, hspace, hop, hvalue]
  case compare op _ _ =>
    have hop : Listing.words op.mnemonic = [op.mnemonic] := by cases op <;> decide
    simp (disch := decide) [text, words_opening, hspace, hop, hvalue]
    rfl
  case phi x operands =>
    have hops := words_intercalate (g := " ") (by decide) (operands.map phiOperandText)
    simp (disch := decide) [text, words_opening, hspace, hname, hops, words_phiOperand,
      List.flatMap_map]
    rfl
  case declareArray x sizes =>
    rw [text, words_sizes, words_opening (by decide), hname]
    rfl
  case call x arguments =>
    have hargs := words_intercalate (g := ", ") (by decide) (arguments.map ValueId.text)
    rw [text, words_closing (by decide), words_between (by decide), words_opening (by decide),
      hname, commaList, hargs, List.flatMap_map]
    simp only [hvalue, ← List.map_eq_flatMap]
    rfl
  case ret value =>
    cases value with
    | none => decide
    | some v =>
        simp (disch := decide) [text, words_opening, hvalue]
        rfl
  -- What is left is a mnemonic and some operands, with blanks between them.
  all_goals
    simp (disch := decide) [text, words_opening, hspace, hname, hint, hnat, hvalue, hblock]
    rfl

theorem operands_injective : ∀ {os ps : List (BlockId × ValueId)},
    os.flatMap (fun o => [o.1.text, o.2.text]) = ps.flatMap (fun o => [o.1.text, o.2.text]) →
      os = ps
  | [], [], _ => rfl
  | [], _ :: _, h => by simp at h
  | _ :: _, [], h => by simp at h
  | o :: os, q :: ps, h => by
      simp [Prod.ext_iff] at h ⊢
      exact ⟨⟨h.1, h.2.1⟩, operands_injective h.2.2⟩

/-- No two instructions have the same words. -/
theorem words_injective {a b : Op} (h : a.words = b.words) : a = b := by
  have hvalues {vs ws : List ValueId} : vs.map ValueId.text = ws.map ValueId.text ↔ vs = ws :=
    List.map_inj_right fun _ _ => ValueId.text_inj.1
  have hsizes {vs ws : List Int64} :
      (vs.map fun n => n.toInt.repr) = (ws.map fun n => n.toInt.repr) ↔ vs = ws :=
    List.map_inj_right fun _ _ h => Int64.toInt_inj.1 (Int.repr_inj.1 h)
  have hoption {v w : Option ValueId} (h : v.toList = w.toList) : v = w := by
    simpa using congrArg List.head? h
  have hrel {c d : RelOp} (h : c.mnemonic = d.mnemonic) : c = d := by
    cases c <;> cases d <;> simp [RelOp.mnemonic] at h ⊢
  -- The mnemonics of arithmetic are not among the words that the others start with.
  have harith (op : ArithOp) : op = .add ∧ op.mnemonic = "add" ∨ op = .sub ∧ op.mnemonic = "sub"
      ∨ op = .mul ∧ op.mnemonic = "mul" ∨ op = .div ∧ op.mnemonic = "div" := by
    cases op <;> simp [ArithOp.mnemonic]
  cases a <;> cases b <;> simp [words, Int64.toInt_inj, hvalues, hsizes] at h ⊢
  all_goals grind [operands_injective]

end Op

theorem words_line (v : ValueId) {op : Op} (h : ∀ x ∈ op.names, Segment.IsWord x.toList) :
    Listing.words (op.line v) = v.text :: op.words := by
  have hline {g : String} (hgap : Listing.isGap g = true) :
      Listing.words (v.text ++ g ++ op.text) = v.text :: op.words := by
    rw [Listing.words_between hgap, Listing.words_of_isWord (Listing.isWord_value v),
      Op.words_text h]
    rfl
  unfold Op.line
  split
  · exact hline (by decide)
  · exact hline (by decide)

/-- Instructions of whatever programs that have the same line are the same, handle
and all. -/
theorem instrLine_unambiguous {p q : Program} {v w : ValueId} {i j : Instr}
    (hi : p.getInstr v = .ok i) (hj : q.getInstr w = .ok j)
    (hni : ∀ x ∈ i.op.names, Segment.IsWord x.toList)
    (hnj : ∀ x ∈ j.op.names, Segment.IsWord x.toList) (h : p.instrLine v = q.instrLine w) :
    v = w ∧ i.op = j.op := by
  have hline : i.op.line v = j.op.line w := by
    simpa [Program.instrLine, hi, hj, bind, Except.bind, pure, Except.pure] using h
  have hwords := congrArg Listing.words hline
  rw [words_line v hni, words_line w hnj, List.cons.injEq] at hwords
  exact ⟨ValueId.text_inj.1 hwords.1, Op.words_injective hwords.2⟩

/-- The same call at different places of two texts. -/
theorem calls_unambiguous : ∃ (p q : Program) (i j : Instr), p ≠ q
    ∧ p.getInstr ⟨1⟩ = .ok i ∧ q.getInstr ⟨1⟩ = .ok j ∧ i.op = .call "f2" [⟨0⟩, ⟨0⟩]
    ∧ p.instrLine ⟨1⟩ = q.instrLine ⟨1⟩ ∧ (ValueId.mk 1 = ⟨1⟩ ∧ i.op = j.op) := by
  let called (line : Nat) : Instr := ⟨.call "f2" [⟨0⟩, ⟨0⟩], none, line, []⟩
  let p (line : Nat) : Program := ⟨#[], .empty, #[⟨.read, none, 1, []⟩, called line], #[]⟩
  have hname : ∀ x ∈ ["f2"], Segment.IsWord x.toList := by simp [Segment.IsWord]
  exact ⟨p 1, p 2, called 1, called 2, by decide, rfl, rfl, rfl, rfl,
    instrLine_unambiguous (p := p 1) (q := p 2) rfl rfl hname hname rfl⟩

end StructuredSsa
