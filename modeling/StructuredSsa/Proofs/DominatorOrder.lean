import Mathlib.Data.List.Perm.Subperm
import StructuredSsa.Proofs.Assembled
import StructuredSsa.Proofs.Dominators
import StructuredSsa.Proofs.KeptTrees

/-!
# The blocks in the order of the dominator tree

The walk through a dominator tree keeps no record of where it has been. What it lists
is `DominatorTree.Spelled`: each block, then all below it, then its neighbours. Where
the pointers of some blocks form a tree (`DominatorTree.Spans`), the blocks below
different children of a block are different, so that the walk comes to an end and has
listed each block once.

Folding changes no pointer and no list of blocks, so it leaves trees as they are.
-/

namespace StructuredSsa

theorem Above.eq_or_child {idom : BlockId → Option BlockId} {b x : BlockId} (h : Above idom b x) :
    x = b ∨ ∃ c, idom c = some b ∧ Above idom c x := by
  induction h with
  | refl => exact Or.inl rfl
  | @up x d hd _ ih =>
      rcases ih with rfl | ⟨c, hc, habove⟩
      · exact Or.inr ⟨x, hd, .refl x⟩
      · exact Or.inr ⟨c, hc, .up hd habove⟩

namespace DominatorTree

variable {t : DominatorTree} {idom : BlockId → Option BlockId} {blocks bs order : List BlockId}
  {b c d x : BlockId}

theorem insertEdge_perm (e : BlockId × BlockId) :
    ∀ edges, (insertEdge e edges).Perm (e :: edges)
  | [] => .refl _
  | f :: rest => by
      unfold insertEdge
      split
      · exact .refl _
      · exact ((insertEdge_perm e rest).cons f).trans (.swap e f rest)

theorem foldl_insertEdge_perm : ∀ new edges : List (BlockId × BlockId),
    (new.foldl (fun edges e => insertEdge e edges) edges).Perm (new ++ edges)
  | [], _ => .refl _
  | e :: new, edges => (foldl_insertEdge_perm new (insertEdge e edges)).trans
      (((insertEdge_perm e edges).append_left new).trans List.perm_middle)

theorem mem_children : c ∈ t.children b ↔ (b, c) ∈ t.edges := by
  simp [children]

theorem children_nodup (h : t.edges.Nodup) (b : BlockId) : (t.children b).Nodup := by
  refine (h.filter _).map_on fun e he f hf hef => ?_
  simp only [List.mem_filter, decide_eq_true_eq] at he hf
  exact Prod.ext (he.2.trans hf.2.symm) hef

/-! ## What a walk lists -/

/-- Some blocks, each followed by all that is below it. -/
inductive Spelled (t : DominatorTree) : List BlockId → List BlockId → Prop where
  | nil : Spelled t [] []
  | cons {b : BlockId} {bs below rest : List BlockId} : Spelled t (t.children b) below →
      Spelled t bs rest → Spelled t (b :: bs) (b :: (below ++ rest))

/-- One visit for each block that is listed is enough. -/
theorem Spelled.walk (h : t.Spelled bs order) : ∀ {stack rest : List BlockId} {n : Nat},
    t.walk n stack = some rest → t.walk (order.length + n) (bs ++ stack) = some (order ++ rest) := by
  induction h with
  | nil =>
      intro stack rest n hw
      simpa using hw
  | @cons b bs below more _ _ ih ih' =>
      intro stack rest n hw
      have hlength : (b :: (below ++ more)).length + n = below.length + (more.length + n) + 1 := by
        simp only [List.length_cons, List.length_append]
        omega
      rw [hlength, List.cons_append, DominatorTree.walk, ih (ih' hw)]
      simp

theorem Spelled.preorder (h : t.Spelled [t.root] order) (hn : order.length ≤ t.edges.length + 1) :
    t.preorder? = some order := by
  have hend : t.walk (t.edges.length + 1 - order.length) [] = some [] := by
    cases t.edges.length + 1 - order.length <;> rfl
  have hwalk := h.walk hend
  rwa [Nat.add_sub_cancel' hn, List.append_nil, List.append_nil] at hwalk

theorem exists_spelled : ∀ {bs : List BlockId}, (∀ b ∈ bs, ∃ below, t.Spelled (t.children b) below) →
    ∃ order, t.Spelled bs order
  | [], _ => ⟨[], .nil⟩
  | b :: bs, h => by
      obtain ⟨below, hbelow⟩ := h b List.mem_cons_self
      obtain ⟨rest, hrest⟩ := exists_spelled fun c hc => h c (List.mem_cons_of_mem b hc)
      exact ⟨_, .cons hbelow hrest⟩

/-- What is below a block stands behind it in one piece. -/
theorem Spelled.split (h : t.Spelled bs order) (hx : x ∈ order) :
    ∃ before below after, order = before ++ (x :: below ++ after) ∧ t.Spelled (t.children x) below := by
  induction h with
  | nil => cases hx
  | @cons b bs below rest hbelow _ ih ih' =>
      rcases List.mem_cons.1 hx with rfl | hx
      · exact ⟨[], below, rest, rfl, hbelow⟩
      · rcases List.mem_append.1 hx with hx | hx
        · obtain ⟨before, inner, after, rfl, hinner⟩ := ih hx
          exact ⟨b :: before, inner, after ++ rest, by simp, hinner⟩
        · obtain ⟨before, inner, after, rfl, hinner⟩ := ih' hx
          exact ⟨b :: below ++ before, inner, after, by simp, hinner⟩

/-! ## Trees -/

/-- The pointers of some blocks form the tree `t`. -/
structure Spans (t : DominatorTree) (idom : BlockId → Option BlockId) (blocks : List BlockId) :
    Prop where
  nodup : blocks.Nodup
  edges_nodup : t.edges.Nodup
  mem_edges : ∀ {d b}, (d, b) ∈ t.edges ↔ b ∈ blocks ∧ idom b = some d
  root_mem : t.root ∈ blocks
  root_idom : idom t.root = none
  parent : ∀ {b d}, b ∈ blocks → idom b = some d → d ∈ blocks
  above : ∀ {b}, b ∈ blocks → Above idom t.root b

section Spans

variable (h : t.Spans idom blocks)
include h

theorem Spans.mem_children : c ∈ t.children b ↔ c ∈ blocks ∧ idom c = some b :=
  DominatorTree.mem_children.trans h.mem_edges

theorem Spans.mem_of_above (hx : x ∈ blocks) (habove : Above idom b x) : b ∈ blocks := by
  induction habove with
  | refl => exact hx
  | up hd _ ih => exact ih (h.parent hx hd)

theorem Spans.not_above_parent (hb : b ∈ blocks) (hd : idom b = some d) : ¬Above idom b d := by
  obtain ⟨l, hl⟩ := Chain.exists_of_above h.root_idom (h.above (h.parent hb hd))
  exact hl.not_above_parent hd

/-- A chain of pointers is no longer than there are blocks, so there are only so many
blocks one below the other. -/
theorem Spans.exists_below (n : Nat) : ∀ {b : BlockId} {l : List BlockId}, b ∈ blocks →
    Chain idom b l → blocks.length < n + l.length → ∃ below, t.Spelled (t.children b) below := by
  induction n with
  | zero =>
      intro b l hb hl hn
      have := (hl.nodup.subperm fun x hx => h.mem_of_above hb (hl.mem_iff.1 hx)).length_le
      omega
  | succ n ih =>
      intro b l hb hl hn
      refine exists_spelled fun c hc => ?_
      obtain ⟨hc, hd⟩ := h.mem_children.1 hc
      exact ih hc (.up hd hl) (by rw [List.length_cons]; omega)

/-- What is listed is what is below. -/
theorem Spans.mem_spelled (hs : t.Spelled bs order) (hbs : ∀ b ∈ bs, b ∈ blocks) :
    x ∈ order ↔ x ∈ blocks ∧ ∃ b ∈ bs, Above idom b x := by
  induction hs with
  | nil => simp
  | @cons b bs below rest _ _ ih ih' =>
      rw [List.mem_cons, List.mem_append, ih fun c hc => (h.mem_children.1 hc).1,
        ih' fun c hc => hbs c (List.mem_cons_of_mem b hc)]
      constructor
      · rintro (rfl | ⟨hx, c, hc, hcx⟩ | ⟨hx, c, hc, hcx⟩)
        · exact ⟨hbs x List.mem_cons_self, x, List.mem_cons_self, .refl x⟩
        · exact ⟨hx, b, List.mem_cons_self, .trans (.single (h.mem_children.1 hc).2) hcx⟩
        · exact ⟨hx, c, List.mem_cons_of_mem b hc, hcx⟩
      · rintro ⟨hx, c, hc, hcx⟩
        rcases List.mem_cons.1 hc with rfl | hc
        · rcases hcx.eq_or_child with rfl | ⟨a, ha, hax⟩
          · exact Or.inl rfl
          · exact Or.inr (Or.inl ⟨hx, a, h.mem_children.2 ⟨h.mem_of_above hx hax, ha⟩, hax⟩)
        · exact Or.inr (Or.inr ⟨hx, c, hc, hcx⟩)

/-- Different children of a block are not above each other. -/
theorem Spans.children_apart (b : BlockId) :
    (t.children b).Pairwise fun a c => ¬Above idom a c ∧ ¬Above idom c a := by
  have hapart {a c : BlockId} (ha : a ∈ t.children b) (hc : c ∈ t.children b) (hne : a ≠ c) :
      ¬Above idom a c := by
    obtain ⟨ham, hab⟩ := h.mem_children.1 ha
    obtain ⟨-, hcb⟩ := h.mem_children.1 hc
    intro hac
    cases hac with
    | refl => exact hne rfl
    | up hd had =>
        obtain rfl := Option.some.inj (hcb.symm.trans hd)
        exact h.not_above_parent ham hab had
  exact (children_nodup h.edges_nodup b).imp_of_mem fun ha hc hne =>
    ⟨hapart ha hc hne, hapart hc ha (Ne.symm hne)⟩

/-- Below blocks that are not above each other no block is listed twice. -/
theorem Spans.nodup_spelled (hs : t.Spelled bs order) (hbs : ∀ b ∈ bs, b ∈ blocks)
    (hapart : bs.Pairwise fun a c => ¬Above idom a c ∧ ¬Above idom c a) : order.Nodup := by
  induction hs with
  | nil => exact List.nodup_nil
  | @cons b bs below rest hbelow hrest ih ih' =>
      obtain ⟨hb, hapart⟩ := List.pairwise_cons.1 hapart
      have hbs' : ∀ c ∈ bs, c ∈ blocks := fun c hc => hbs c (List.mem_cons_of_mem b hc)
      have hchildren : ∀ c ∈ t.children b, c ∈ blocks := fun c hc => (h.mem_children.1 hc).1
      -- what is listed with one of the others is not below this one
      have hother {x : BlockId} (hx : x ∈ rest) (hbx : Above idom b x) : False := by
        obtain ⟨-, c, hc, hcx⟩ := (h.mem_spelled hrest hbs').1 hx
        exact (hbx.total hcx).elim (hb c hc).1 (hb c hc).2
      refine List.nodup_cons.2 ⟨fun hmem => ?_, List.nodup_append'.2 ⟨ih hchildren (h.children_apart b),
        ih' hbs' hapart, fun x hx hx' => ?_⟩⟩
      · rcases List.mem_append.1 hmem with hmem | hmem
        · obtain ⟨-, c, hc, hcb⟩ := (h.mem_spelled hbelow hchildren).1 hmem
          obtain ⟨hc, hd⟩ := h.mem_children.1 hc
          exact h.not_above_parent hc hd hcb
        · exact hother hmem (.refl b)
      · obtain ⟨-, c, hc, hcx⟩ := (h.mem_spelled hbelow hchildren).1 hx
        exact hother hx' (.trans (.single (h.mem_children.1 hc).2) hcx)

/-- The walk through a tree ends. -/
theorem Spans.exists_preorder : ∃ below, t.preorder? = some (t.root :: below)
    ∧ t.Spelled [t.root] (t.root :: below) ∧ (t.root :: below).Perm blocks := by
  obtain ⟨below, hbelow⟩ := h.exists_below (blocks.length + 1) h.root_mem (.root h.root_idom) (by omega)
  have hs : t.Spelled [t.root] (t.root :: below) := by simpa using Spelled.cons hbelow .nil
  have hroot : ∀ b ∈ [t.root], b ∈ blocks := by simpa using h.root_mem
  have hperm : (t.root :: below).Perm blocks := by
    refine (List.perm_ext_iff_of_nodup (h.nodup_spelled hs hroot (List.pairwise_singleton ..))
      h.nodup).2 fun x => (h.mem_spelled hs hroot).trans ?_
    simpa using h.above
  -- every block but the root is at the end of an edge
  have hsub : blocks ⊆ t.root :: t.edges.map Prod.snd := by
    intro b hb
    cases h.above hb with
    | refl => exact List.mem_cons_self
    | up hd _ => exact List.mem_cons_of_mem _ (List.mem_map.2 ⟨_, h.mem_edges.2 ⟨hb, hd⟩, rfl⟩)
  have hlength : blocks.length ≤ t.edges.length + 1 := by
    simpa using (h.nodup.subperm hsub).length_le
  exact ⟨below, hs.preorder (hperm.length_eq.trans_le hlength), hs, hperm⟩

end Spans

end DominatorTree

namespace Program

/-- The blocks of a method in the order of the tree that their pointers form: all of
them, the entry first, each behind its dominator and in one piece with all that is
below it. The edges of the tree are the pointers, each of them once. -/
structure TreeOrder (p : Program) (m : Method) (t : DominatorTree) (order : List BlockId) :
    Prop where
  perm : order.Perm m.blocks
  first : order.head? = some m.entry
  behind : ∀ b ∈ m.blocks, b ≠ m.entry → ∃ d ∈ m.blocks, p.view.idom b = some d ∧ [d, b].Sublist order
  together : ∀ b ∈ m.blocks, ∃ before below after, order = before ++ (b :: below ++ after)
    ∧ ∀ x, x ∈ b :: below ↔ x ∈ m.blocks ∧ Above p.view.idom b x
  edges_nodup : t.edges.Nodup
  edges : ∀ d b, (d, b) ∈ t.edges ↔ b ∈ m.blocks ∧ b ≠ m.entry ∧ p.view.idom b = some d

variable {p q : Program} {id : MethodId} {m : Method} {t : DominatorTree}

theorem treeOrder_of_spans (h : t.Spans p.view.idom m.blocks) (hroot : t.root = m.entry) :
    ∃ order, t.preorder? = some order ∧ p.TreeOrder m t order := by
  obtain ⟨below, hpre, hs, hperm⟩ := h.exists_preorder
  have htogether : ∀ b ∈ m.blocks, ∃ before inner after,
      t.root :: below = before ++ (b :: inner ++ after)
        ∧ ∀ x, x ∈ b :: inner ↔ x ∈ m.blocks ∧ Above p.view.idom b x := by
    intro b hb
    obtain ⟨before, inner, after, hsplit, hinner⟩ := hs.split (hperm.mem_iff.2 hb)
    refine ⟨before, inner, after, hsplit, fun x => ?_⟩
    have hone : t.Spelled [b] (b :: inner) := by simpa using DominatorTree.Spelled.cons hinner .nil
    simpa using h.mem_spelled hone (x := x) (by simpa using hb)
  refine ⟨_, hpre, hperm, by rw [← hroot]; rfl, fun b hb hne => ?_, htogether, h.edges_nodup,
    fun d b => h.mem_edges.trans ⟨fun ⟨hb, hd⟩ => ⟨hb, ?_, hd⟩, fun ⟨hb, _, hd⟩ => ⟨hb, hd⟩⟩⟩
  · obtain ⟨d, hd⟩ : ∃ d, p.view.idom b = some d := by
      cases h.above hb with
      | refl => exact absurd hroot hne
      | up hd _ => exact ⟨_, hd⟩
    have hdm := h.parent hb hd
    obtain ⟨before, inner, after, hsplit, hmem⟩ := htogether d hdm
    refine ⟨d, hdm, hd, ?_⟩
    have hb' : b ∈ inner := by
      refine (List.mem_cons.1 ((hmem b).2 ⟨hb, .single hd⟩)).resolve_left ?_
      rintro rfl
      exact h.not_above_parent hb hd (.refl b)
    rw [hsplit]
    refine .trans ?_ (List.sublist_append_right ..)
    exact .trans (.cons_cons d (List.singleton_sublist.2 hb')) (List.sublist_append_left ..)
  · rintro rfl
    rw [← hroot, h.root_idom] at hd
    cases hd

/-- The pointers of a finished method form a tree. -/
theorem spans_treeOf {x : BlockId} (hs : p.view.Sound) (hc : p.view.Closed id x)
    (hm : p.method? id = some m) : (p.treeOf m).Spans p.view.idom m.blocks := by
  obtain ⟨-, hentry, -, howned, -⟩ := view_of_method hm
  have hperm : (p.treeOf m).edges.Perm (m.blocks.filterMap p.dominatorEdge?) := by
    simpa [treeOf] using DominatorTree.foldl_insertEdge_perm (m.blocks.filterMap p.dominatorEdge?) []
  have hedge {b : BlockId} {e : BlockId × BlockId} :
      p.dominatorEdge? b = some e ↔ e.2 = b ∧ p.view.idom b = some e.1 := by
    obtain ⟨d, c⟩ := e
    simp only [dominatorEdge?, Option.map_eq_some_iff, Prod.mk.injEq]
    constructor
    · rintro ⟨d, hd, rfl, rfl⟩
      exact ⟨rfl, hd⟩
    · rintro ⟨rfl, hd⟩
      exact ⟨d, hd, rfl, rfl⟩
  rw [← howned] at hperm ⊢
  refine ⟨hs.wired.owned_nodup id, hperm.nodup_iff.2 ?_, fun {d b} => hperm.mem_iff.trans ?_, ?_, ?_,
    fun hb hd => hc.owned_above hs hentry hb (.single hd), fun hb => hc.rooted hs hentry hb⟩
  · refine (hs.wired.owned_nodup id).filterMap fun b b' e he he' => ?_
    exact (hedge.1 he).1.symm.trans (hedge.1 he').1
  · simp [hedge]
  · exact hc.owned_above hs hentry hc.owned (hc.rooted hs hentry hc.owned)
  · exact hs.scoping.entry_idom _ (hs.wired.isEntry_entry _ _ hentry).1

theorem SameTrees.idom (h : SameTrees p q) : q.view.idom = p.view.idom := by
  funext b
  have hb := congrArg (Option.bind · Prod.snd) (h.pointer b)
  simpa [view, pointer?, Option.bind_map, Function.comp_def] using hb

end Program

/-- The construction asks for no tree. -/
theorem Build.lasting_treesKept : Build.Lasting Program.TreesKept where
  empty := Program.treesKept_empty
  addMethod name kind h := h.addMethod name kind
  newBlock h hq := h.newBlock hq
  emit h hq := h.of_same (Program.same_emit hq)
  addPhi h hq := h.of_same (Program.same_addPhi hq)
  updatePhi h hq := h.of_same (Program.same_updatePhi hq)
  addParameter h hq := by
    obtain ⟨r, -, hq⟩ := Program.bind_eq_ok hq
    obtain rfl := Except.ok.inj hq
    exact h.of_same (Program.same_modifyBlock _ _ fun r => by split <;> rfl)
  link h hq := h.of_same (Program.same_link hq)
  setDominator h hq := h.setDominator hq
  setBefore h hq := h.of_same (Program.same_setBefore hq)
  sealBlock h hq := h.of_same (Program.same_sealBlock hq)
  setExit h hq := h.of_same (Program.same_setExit hq)
  prune h hq := by
    obtain ⟨r, -, hq⟩ := Program.bind_eq_ok hq
    obtain ⟨-, rfl⟩ := Prod.mk.inj (Except.ok.inj hq)
    exact .dropBlocks _ h
  globals _ h := h.of_same (Program.same_of_tables rfl rfl)
  symbols m _ _ h := h.of_same (Program.same_modifyMethod _ m fun _ => ⟨rfl, rfl, Or.inr rfl⟩)

/-- Whatever the tokens, and however much is folded with whatever outcome, the walk
through the dominator tree of a method ends, and it lists the blocks of the method in
the order of the tree. -/
theorem buildTokens_preorder {tokens : List Token} {earlier : List Diagnostic} {built : Built}
    (h : buildTokens tokens earlier = .ok built) (level maxPasses : Nat) {q : Program}
    (hq : q = built.program ∨ q = Fold.left (Fold.run level maxPasses built.program))
    {id : MethodId} {m : Method} (hm : q.method? id = some m) :
    ∃ t order, q.buildTree id = .ok t ∧ Prod.fst <$> q.dominatorTree id = .ok t
      ∧ t.preorder? = some order ∧ q.TreeOrder m t order := by
  obtain ⟨hs, hdone⟩ := buildTokens_sound h
  have hsame : Program.SameTrees built.program q := by
    rcases hq with rfl | rfl
    · exact .refl _
    · exact (Fold.lasting_sameTrees _).run level maxPasses _ (.refl _)
  have hkept := (buildTokens_lasting Build.lasting_treesKept h).of_same hsame
  obtain ⟨s, hs', hentry, hblocks, -⟩ := hsame.method hm
  obtain ⟨x, hclosed⟩ := hdone id (by simp [(Program.view_of_method hs').1])
  have hspans := Program.spans_treeOf hs hclosed hs'
  rw [← Program.treeOf_congr hentry hblocks fun b _ => hsame.pointer b, ← hsame.idom, ← hblocks]
    at hspans
  obtain ⟨order, hpre, horder⟩ := Program.treeOrder_of_spans hspans rfl
  have hbuild : q.buildTree id = .ok (q.treeOf m) := by
    rw [Program.buildTree, Program.getMethod_ok hm]
    rfl
  have hask : q.dominatorTree id = .ok (m.tree.getD (q.treeOf m),
      q.modifyMethod id fun r => { r with tree := some (m.tree.getD (q.treeOf m)) }) := by
    rw [Program.dominatorTree, Program.getMethod_ok hm]
    rfl
  refine ⟨_, order, hbuild, ?_, hpre, horder⟩
  rw [hask]
  exact (hkept.dominatorTree hask).1.symm.trans hbuild

/-- A loop whose test is decided when it is folded, and behind it a division by zero that
ends the folding. -/
def dividing : List Token :=
  [.keyword .main, .keyword .var, .ident "a", .punct .semicolon, .punct .lbrace,
    .keyword .while_, .number 2, .punct .lt, .number 1, .keyword .do_,
    .keyword .if_, .ident "a", .punct .eq, .number 1, .keyword .then_, .keyword .ret,
    .keyword .fi, .punct .semicolon, .keyword .let_, .ident "a", .punct .arrow, .number 2,
    .keyword .od, .punct .semicolon, .keyword .let_, .ident "a", .punct .arrow, .number 4,
    .punct .slash, .number 0, .punct .rbrace, .punct .period,
    .eof].map fun k => ⟨k, k.text, .start⟩

theorem dividing_preorder : ∃ built q m, buildTokens dividing [] = .ok built
    ∧ q = Fold.left (Fold.run 2 16 built.program) ∧ built.program.succs ⟨3⟩ = [⟨4⟩, ⟨5⟩]
    ∧ q.succs ⟨3⟩ = [⟨5⟩] ∧ q.method? ⟨0⟩ = some m
    ∧ (q.treeOf m).preorder? = some [⟨0⟩, ⟨1⟩, ⟨3⟩, ⟨2⟩, ⟨4⟩, ⟨6⟩, ⟨7⟩, ⟨8⟩, ⟨5⟩]
    ∧ ∃ t order, q.buildTree ⟨0⟩ = .ok t ∧ Prod.fst <$> q.dominatorTree ⟨0⟩ = .ok t
      ∧ t.preorder? = some order ∧ q.TreeOrder m t order := by
  have hrun : ((buildTokens dividing []).toOption.bind fun b =>
      let q := Fold.left (Fold.run 2 16 b.program)
      (q.method? ⟨0⟩).map fun m => (b.program.succs ⟨3⟩, q.succs ⟨3⟩, (q.treeOf m).preorder?))
      = some ([⟨4⟩, ⟨5⟩], [⟨5⟩],
        some [⟨0⟩, ⟨1⟩, ⟨3⟩, ⟨2⟩, ⟨4⟩, ⟨6⟩, ⟨7⟩, ⟨8⟩, ⟨5⟩]) := by
    decide +kernel
  cases h : buildTokens dividing [] with
  | error e => rw [h] at hrun; cases hrun
  | ok built =>
      rw [h] at hrun
      obtain ⟨m, hm, hfacts⟩ := Option.map_eq_some_iff.1 hrun
      obtain ⟨hbefore, hfacts⟩ := Prod.mk.inj hfacts
      obtain ⟨hafter, hpre⟩ := Prod.mk.inj hfacts
      exact ⟨built, _, m, rfl, rfl, hbefore, hafter, hm, hpre,
        buildTokens_preorder h 2 16 (Or.inr rfl) hm⟩

end StructuredSsa
