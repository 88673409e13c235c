import Cpl.Compile
import Cpl.Proofs.Grammar.Derivation
import Cpl.Proofs.Tiling
import Mathlib.Data.List.Chain

/-!
# Spans within spans

The spans of a tree that is read from a text. The span of a node is that of its tokens, so it lies within
the span of the node around it; only the body of a case that has no statement is out of place.

* `Program.nodes`: the nodes of a tree that have spans, each with the span of the node around it;
* `Node.Nested`: the span of the node is in order, and within that of the node around it;
* `Laid`: tokens that follow each other in a text. `Inside` says so of the tokens of a node, and that they are
  within the span of the node around them; this is what the induction over a derivation needs;
* `Program.nodes_nested`: all nodes are nested, except for bodies without statements: these start behind the
  gap that comes after the case, and are nested if there is no gap.
-/

namespace Cpl

/-! ## Nodes -/

/-- A node of a tree that has a span. -/
structure Node where
  span : Span
  /-- The span of the node around it, which the nodes at the top of a program lack. -/
  outer : Option Span
  /-- Whether it is the body of a case, and has no statement. -/
  isEmptyArm : Bool
deriving DecidableEq, Repr

/-- The span is in order, and within that of the node around it. -/
structure Node.Nested (n : Node) : Prop where
  ordered : n.span.first ≤ n.span.past
  within : ∀ o ∈ n.outer, o.first ≤ n.span.first ∧ n.span.past ≤ o.past

mutual

/-- The nodes that have spans, in a node with the given span. -/
def Expression.nodes (outer : Option Span) : Expression → List Node
  | .term term => term.nodes outer
  | .chain left _ right => left.nodes outer ++ right.nodes outer

@[inherit_doc Expression.nodes]
def Term.nodes (outer : Option Span) : Term → List Node
  | .factor factor => factor.nodes outer
  | .chain left _ right => left.nodes outer ++ right.nodes outer

@[inherit_doc Expression.nodes]
def Factor.nodes (outer : Option Span) : Factor → List Node
  | .name ident => [⟨ident.span, outer, false⟩]
  | .literal _ => []
  | .parens inner span => ⟨span, outer, false⟩ :: inner.nodes (some span)
  | .cast _ inner span => ⟨span, outer, false⟩ :: inner.nodes (some span)

end

mutual

@[inherit_doc Expression.nodes]
def Condition.nodes (outer : Option Span) : Condition → List Node
  | .clause clause => clause.nodes outer
  | .or left right => left.nodes outer ++ right.nodes outer

@[inherit_doc Expression.nodes]
def Clause.nodes (outer : Option Span) : Clause → List Node
  | .test test => test.nodes outer
  | .and left right => left.nodes outer ++ right.nodes outer

@[inherit_doc Expression.nodes]
def Test.nodes (outer : Option Span) : Test → List Node
  | .compare left _ right => left.nodes outer ++ right.nodes outer
  | .not inner span => ⟨span, outer, false⟩ :: inner.nodes (some span)

end

mutual

@[inherit_doc Expression.nodes]
def Statement.nodes (outer : Option Span) : Statement → List Node
  | .assign target value span =>
    ⟨span, outer, false⟩ :: ⟨target.span, some span, false⟩ :: value.nodes (some span)
  | .input target span => [⟨span, outer, false⟩, ⟨target.span, some span, false⟩]
  | .output value span => ⟨span, outer, false⟩ :: value.nodes (some span)
  | .ifThen condition body span =>
    ⟨span, outer, false⟩ :: (condition.nodes (some span) ++ body.nodes (some span))
  | .ifElse condition body other span =>
    ⟨span, outer, false⟩ ::
      (condition.nodes (some span) ++ (body.nodes (some span) ++ other.nodes (some span)))
  | .loop condition body span =>
    ⟨span, outer, false⟩ :: (condition.nodes (some span) ++ body.nodes (some span))
  | .switch selector cases default span =>
    ⟨span, outer, false⟩ ::
      (selector.nodes (some span) ++ (casesNodes (some span) cases ++ default.nodes (some span)))
  | .leave span => [⟨span, outer, false⟩]
  | .block block => block.nodes outer

@[inherit_doc Expression.nodes]
def Block.nodes (outer : Option Span) : Block → List Node
  | ⟨body, span⟩ => ⟨span, outer, false⟩ :: statementsNodes (some span) body

@[inherit_doc Expression.nodes]
def statementsNodes (outer : Option Span) : List Statement → List Node
  | [] => []
  | first :: rest => first.nodes outer ++ statementsNodes outer rest

@[inherit_doc Expression.nodes]
def casesNodes (outer : Option Span) : List Case → List Node
  | [] => []
  | ⟨_, ⟨body, inner⟩, span⟩ :: rest =>
    ⟨span, outer, false⟩ :: ⟨inner, some span, body.isEmpty⟩ ::
      (statementsNodes (some inner) body ++ casesNodes outer rest)

end

/-- The declaration and its names. -/
def Declaration.nodes (d : Declaration) : List Node :=
  ⟨d.span, none, false⟩ :: d.names.map fun i => ⟨i.span, some d.span, false⟩

/-- The nodes of a program that have spans. -/
def Program.nodes (p : Program) : List Node :=
  p.declarations.flatMap Declaration.nodes ++ p.body.nodes none

/-! ## Tokens of a text -/

theorem Text.GapBetween.le {source : List Char} {first past : Nat}
    (h : GapBetween source first past) : first ≤ past := by
  obtain ⟨before, gap, after, -, rfl, rfl, -⟩ := h
  rw [byteSize_append]
  exact Nat.le_add_right _ _

/-- Tokens that follow each other in a text, with gaps between them. -/
structure Laid (source : List Char) (ts : List Token) : Prop where
  ordered : ∀ t ∈ ts, t.span.first ≤ t.span.past
  apart : ts.Pairwise fun t u => t.span.past ≤ u.span.first
  gaps : ts.IsChain fun t u => Text.GapBetween source t.span.past u.span.first

namespace Laid

variable {source : List Char} {ts : List Token}

theorem part {us : List Token} (h : Laid source us) (before after : List Token)
    (hus : us = before ++ (ts ++ after)) : Laid source ts := by
  subst hus
  refine ⟨?_, ?_, ?_⟩
  · intro t ht
    exact h.ordered t (List.mem_append_right _ (List.mem_append_left _ ht))
  · have hrest := (List.pairwise_append.mp h.apart).2.1
    exact (List.pairwise_append.mp hrest).1
  · exact h.gaps.right_of_append.left_of_append

theorem first_le {t u : Token} (h : Laid source ts) (ht : t ∈ ts.head?) (hu : u ∈ ts) :
    t.span.first ≤ u.span.first := by
  obtain ⟨rest, rfl⟩ := List.head?_eq_some_iff.mp ht
  obtain rfl | hu := List.mem_cons.mp hu
  · exact Nat.le_refl _
  · have hle := h.ordered t List.mem_cons_self
    have happart := (List.pairwise_cons.mp h.apart).1 u hu
    omega

theorem past_le {t u : Token} (h : Laid source ts) (ht : t ∈ ts.getLast?) (hu : u ∈ ts) :
    u.span.past ≤ t.span.past := by
  obtain ⟨init, rfl⟩ := List.getLast?_eq_some_iff.mp ht
  obtain hu | hu := List.mem_append.mp hu
  · have hle := h.ordered t List.mem_concat_self
    have happart := (List.pairwise_append.mp h.apart).2.2 u hu t List.mem_cons_self
    omega
  · rw [List.mem_singleton.mp hu]

end Laid

theorem Token.Fills.past_le {t : Token} {source : List Char} (h : t.Fills source) :
    t.span.past ≤ Text.byteSize source := by
  obtain ⟨before, after, hsource, -, hpast, -⟩ := h.stands
  rw [← hpast, hsource, Text.byteSize_append (before ++ t.value.toList)]
  exact Nat.le_add_right _ _

/-- The gaps before and after each token are those between neighbours. -/
theorem isChain_of_gaps {source : List Char} {offset : Nat} {init : List Token} {last : Token}
    (h : List.Forall₂ (Text.GapBetween source) (offset :: init.map fun t => t.span.past)
      ((init.map fun t => t.span.first) ++ [last.span.first])) :
    ((init ++ [last]).IsChain fun t u => Text.GapBetween source t.span.past u.span.first) ∧
      ∀ u ∈ (init ++ [last]).head?, Text.GapBetween source offset u.span.first := by
  induction init generalizing offset with
  | nil =>
    cases h with
    | cons hgap _ => exact ⟨.singleton last, fun u hu => Option.some.inj hu ▸ hgap⟩
  | cons t init ih =>
    cases h with
    | cons hgap hrest =>
      obtain ⟨hchain, hhead⟩ := ih hrest
      exact ⟨hchain.cons hhead, fun u hu => Option.some.inj hu ▸ hgap⟩

theorem laid_of_tokenize {source file : String} {ts : List Token}
    (hsize : Text.byteSize source.toList < UInt32.size) (h : tokenize source file = .ok ts) :
    Laid source.toList ts := by
  rw [tokenize_eq] at h
  unfold Scan.result at h
  split at h <;> cases h
  rename_i hnone
  obtain ⟨htiles, hstop⟩ := Scan.tiles_ofChars file 0 source.toList hnone
  have hfilled : Filled source.toList 0 (Scan.ofChars file 0 source.toList).tokens :=
    htiles.filled [] rfl hsize
  rw [Nat.zero_add] at hstop
  rw [hstop]
  have hend : (Token.endAt (.ofByte file (Text.byteSize source.toList))).span.first =
      Text.byteSize source.toList := Position.toNat_ofByte hsize
  refine ⟨?_, ?_, ?_⟩
  · refine List.forall_mem_append.mpr ⟨fun t ht => (hfilled.fills t ht).nonempty.le, ?_⟩
    exact List.forall_mem_singleton.mpr (Nat.le_refl _)
  · refine List.pairwise_append.mpr ⟨hfilled.ordered, List.pairwise_singleton _ _, ?_⟩
    intro t ht u hu
    rw [List.mem_singleton.mp hu, hend]
    exact (hfilled.fills t ht).past_le
  · have hgaps := hfilled.gaps
    rw [← hend] at hgaps
    exact (isChain_of_gaps hgaps).1

/-! ## Tokens of a node -/

/-- The tokens of a node follow each other in the text, within the span of the node around it. -/
structure Inside (source : List Char) (outer : Option Span) (ts : List Token) : Prop where
  laid : Laid source ts
  around : ∀ o ∈ outer, ∀ t ∈ ts, o.first ≤ t.span.first ∧ t.span.past ≤ o.past

/-- The body of a case, without statements: it starts behind the gap that comes after the case. -/
structure Node.Trails (source : List Char) (n : Node) : Prop where
  gap : Text.GapBetween source n.span.past n.span.first
  arm : ∃ o ∈ n.outer, o.first ≤ o.past ∧ n.span.past = o.past

/-- The node is nested, or trails its case. -/
structure Node.Lies (source : List Char) (n : Node) : Prop where
  nested : n.isEmptyArm = false → n.Nested
  trails : n.isEmptyArm = true → n.Trails source

theorem Token.isOver (t : Token) : t.span.IsOver [t] :=
  ⟨⟨t, rfl, rfl⟩, ⟨t, rfl, rfl⟩⟩

theorem Span.IsOver.exists_first {span : Span} {ts : List Token} (h : span.IsOver ts) :
    ∃ t ∈ ts.head?, span.first = t.span.first := by
  obtain ⟨t, ht, hstart⟩ := h.start
  exact ⟨t, ht, congrArg (fun p => p.offset.toNat) hstart⟩

theorem Span.IsOver.exists_past {span : Span} {ts : List Token} (h : span.IsOver ts) :
    ∃ t ∈ ts.getLast?, span.past = t.span.past := by
  obtain ⟨t, ht, hstop⟩ := h.stop
  exact ⟨t, ht, congrArg (fun p => p.offset.toNat) hstop⟩

namespace Inside

variable {source : List Char} {outer : Option Span} {ts us : List Token} {span : Span}

theorem part (h : Inside source outer us) (before after : List Token)
    (hus : us = before ++ (ts ++ after)) : Inside source outer ts := by
  refine ⟨h.laid.part before after hus, ?_⟩
  intro o ho t ht
  apply h.around o ho
  rw [hus]
  exact List.mem_append_right _ (List.mem_append_left _ ht)

/-- The two sides of an operator. -/
theorem sides {op : Token} (h : Inside source outer (ts ++ op :: us)) :
    Inside source outer ts ∧ Inside source outer us :=
  ⟨h.part [] (op :: us) rfl, h.part (ts ++ [op]) [] (by simp)⟩

/-- The tokens of a node are within its own span. -/
theorem own (h : Inside source outer ts) (hspan : span.IsOver ts) : Inside source (some span) ts := by
  obtain ⟨first, hfirst, heq⟩ := hspan.exists_first
  obtain ⟨last, hlast, heq'⟩ := hspan.exists_past
  refine ⟨h.laid, ?_⟩
  intro o ho t ht
  obtain rfl : span = o := Option.some.inj ho
  rw [heq, heq']
  exact ⟨h.laid.first_le hfirst ht, h.laid.past_le hlast ht⟩

theorem nested (h : Inside source outer ts) (hspan : span.IsOver ts) (isEmptyArm : Bool) :
    Node.Nested ⟨span, outer, isEmptyArm⟩ := by
  obtain ⟨first, hfirst, heq⟩ := hspan.exists_first
  obtain ⟨last, hlast, heq'⟩ := hspan.exists_past
  have hmem : first ∈ ts := List.mem_of_mem_head? hfirst
  have hmem' : last ∈ ts := List.mem_of_getLast? hlast
  constructor
  · have hle := h.laid.ordered first hmem
    have hlast := h.laid.past_le hlast hmem
    show span.first ≤ span.past
    omega
  · intro o ho
    have hleft := (h.around o ho first hmem).1
    have hright := (h.around o ho last hmem').2
    show o.first ≤ span.first ∧ span.past ≤ o.past
    omega

theorem lies (h : Inside source outer ts) (hspan : span.IsOver ts) :
    Node.Lies source ⟨span, outer, false⟩ :=
  ⟨fun _ => h.nested hspan false, nofun⟩

end Inside

/-! ## Derivations -/

section

variable {source : List Char} {outer : Option Span} {ts : List Token}

mutual

theorem Expression.ReadFrom.lies {e : Expression} {outer : Option Span} {ts : List Token}
    (h : e.ReadFrom ts) (hin : Inside source outer ts) : ∀ n ∈ e.nodes outer, n.Lies source := by
  cases h with
  | term ht => exact ht.lies hin
  | chain hl _ hr =>
    obtain ⟨hleft, hright⟩ := hin.sides
    exact List.forall_mem_append.mpr ⟨hl.lies hleft, hr.lies hright⟩

theorem Term.ReadFrom.lies {t : Term} {outer : Option Span} {ts : List Token}
    (h : t.ReadFrom ts) (hin : Inside source outer ts) : ∀ n ∈ t.nodes outer, n.Lies source := by
  cases h with
  | factor hf => exact hf.lies hin
  | chain hl _ hr =>
    obtain ⟨hleft, hright⟩ := hin.sides
    exact List.forall_mem_append.mpr ⟨hl.lies hleft, hr.lies hright⟩

theorem Factor.ReadFrom.lies {f : Factor} {outer : Option Span} {ts : List Token}
    (h : f.ReadFrom ts) (hin : Inside source outer ts) : ∀ n ∈ f.nodes outer, n.Lies source := by
  cases h with
  | @name t _ => exact List.forall_mem_singleton.mpr (hin.lies t.isOver)
  | literal _ => exact List.forall_mem_nil _
  | @parens _ _ o c es _ hi _ hspan =>
    exact List.forall_mem_cons.mpr ⟨hin.lies hspan, hi.lies ((hin.own hspan).part [o] [c] rfl)⟩
  | @cast _ _ _ t o c es _ _ _ hi _ hspan =>
    exact List.forall_mem_cons.mpr ⟨hin.lies hspan, hi.lies ((hin.own hspan).part [t, o] [c] rfl)⟩

end

mutual

theorem Condition.ReadFrom.lies {d : Condition} {outer : Option Span} {ts : List Token}
    (h : d.ReadFrom ts) (hin : Inside source outer ts) : ∀ n ∈ d.nodes outer, n.Lies source := by
  cases h with
  | clause hl => exact hl.lies hin
  | or hl _ hr =>
    obtain ⟨hleft, hright⟩ := hin.sides
    exact List.forall_mem_append.mpr ⟨hl.lies hleft, hr.lies hright⟩

theorem Clause.ReadFrom.lies {l : Clause} {outer : Option Span} {ts : List Token}
    (h : l.ReadFrom ts) (hin : Inside source outer ts) : ∀ n ∈ l.nodes outer, n.Lies source := by
  cases h with
  | test ht => exact ht.lies hin
  | and hl _ hr =>
    obtain ⟨hleft, hright⟩ := hin.sides
    exact List.forall_mem_append.mpr ⟨hl.lies hleft, hr.lies hright⟩

theorem Test.ReadFrom.lies {t : Test} {outer : Option Span} {ts : List Token}
    (h : t.ReadFrom ts) (hin : Inside source outer ts) : ∀ n ∈ t.nodes outer, n.Lies source := by
  cases h with
  | compare hl _ hr =>
    obtain ⟨hleft, hright⟩ := hin.sides
    exact List.forall_mem_append.mpr ⟨hl.lies hleft, hr.lies hright⟩
  | @not _ _ n o c ds _ _ hi _ hspan =>
    exact List.forall_mem_cons.mpr ⟨hin.lies hspan, hi.lies ((hin.own hspan).part [n, o] [c] rfl)⟩

end

/-- A body that has statements is over their tokens. -/
theorem isOver_body {inner span : Span} {k n l after : Token} {bs rs : List Token} (hne : bs ≠ [])
    (hspan : span.IsOver (k :: n :: l :: bs))
    (hstart : inner.start = ((bs ++ rs).headD after).span.start) (hstop : inner.stop = span.stop) :
    inner.IsOver bs := by
  obtain ⟨b, more, rfl⟩ := List.exists_cons_of_ne_nil hne
  obtain ⟨last, hlast, hend⟩ := hspan.stop
  rw [List.getLast?_cons_cons, List.getLast?_cons_cons, List.getLast?_cons_cons] at hlast
  exact ⟨⟨b, rfl, hstart⟩, ⟨last, hlast, hstop.trans hend⟩⟩

/-- A body that has no statement starts with the token after the colon. -/
theorem Inside.trails {inner span : Span} {k n l after : Token} {rs : List Token}
    (hin : Inside source outer (k :: n :: l :: (rs ++ [after]))) (hspan : span.IsOver [k, n, l])
    (hstart : inner.start = (rs.headD after).span.start) (hstop : inner.stop = span.stop)
    (isEmptyArm : Bool) : Node.Trails source ⟨inner, some span, isEmptyArm⟩ := by
  obtain ⟨last, hlast, hpast⟩ := hspan.exists_past
  obtain rfl : l = last := Option.some.inj hlast
  have hfirst : inner.first = (rs.headD after).span.first :=
    congrArg (fun p => p.offset.toNat) hstart
  have hsame : inner.past = span.past := congrArg (fun p => p.offset.toNat) hstop
  have hnext : rs.headD after ∈ (rs ++ [after]).head? := by cases rs <;> rfl
  have hchain := (hin.laid.part [k, n] [] (by simp) : Laid source (l :: (rs ++ [after]))).gaps
  have harm := (hin.part [] (rs ++ [after]) rfl).nested hspan false
  refine ⟨?_, span, rfl, harm.ordered, hsame⟩
  show Text.GapBetween source inner.past inner.first
  rw [hfirst, hsame, hpast]
  exact hchain.rel_head? hnext

/-- The body of a case is within the case, or trails it. -/
theorem Inside.lies_body {body : List Statement} {inner span : Span} {k n l after : Token}
    {bs rs : List Token} (hin : Inside source outer (k :: n :: l :: (bs ++ rs) ++ [after]))
    (hbody : StatementsFrom body bs) (hspan : span.IsOver (k :: n :: l :: bs))
    (hstart : inner.start = ((bs ++ rs).headD after).span.start) (hstop : inner.stop = span.stop) :
    Node.Lies source ⟨inner, some span, body.isEmpty⟩ := by
  constructor
  · intro hfalse
    have hne : bs ≠ [] := fun hbs => Bool.false_ne_true (hfalse.symm.trans (hbody.isEmpty_iff.mpr hbs))
    have harm : Inside source outer (k :: n :: l :: bs) := hin.part [] (rs ++ [after]) (by simp)
    exact ((harm.own hspan).part [k, n, l] [] (by simp)).nested
      (isOver_body hne hspan hstart hstop) body.isEmpty
  · intro htrue
    obtain rfl : bs = [] := hbody.isEmpty_iff.mp htrue
    exact Inside.trails hin hspan hstart hstop body.isEmpty

mutual

theorem Statement.ReadFrom.lies {s : Statement} {outer : Option Span} {ts : List Token}
    (h : s.ReadFrom ts) (hin : Inside source outer ts) : ∀ n ∈ s.nodes outer, n.Lies source := by
  cases h with
  | @assign _ _ i e s vs _ _ _ hv _ hts hspan =>
    have hown := hin.own hspan
    subst hts
    refine List.forall_mem_cons.mpr ⟨hin.lies hspan, List.forall_mem_cons.mpr ⟨?_, ?_⟩⟩
    · exact (hown.part [] (e :: (vs ++ [s])) rfl).lies i.isOver
    · exact hv.lies (hown.part [i, e] [s] rfl)
  | @input _ w o i c s _ _ _ _ _ _ hts hspan =>
    have hown := hin.own hspan
    subst hts
    refine List.forall_mem_cons.mpr ⟨hin.lies hspan, List.forall_mem_singleton.mpr ?_⟩
    exact (hown.part [w, o] [c, s] rfl).lies i.isOver
  | @output _ _ w o c s vs _ _ _ hv _ _ hts hspan =>
    have hown := hin.own hspan
    subst hts
    exact List.forall_mem_cons.mpr ⟨hin.lies hspan, hv.lies (hown.part [w, o] [c, s] rfl)⟩
  | @ifThen _ _ _ w o c ds bs _ _ _ hd _ hb hts hspan =>
    have hown := hin.own hspan
    subst hts
    refine List.forall_mem_cons.mpr ⟨hin.lies hspan, List.forall_mem_append.mpr ⟨?_, ?_⟩⟩
    · exact hd.lies (hown.part [w, o] (c :: bs) rfl)
    · exact hb.lies (hown.part (w :: o :: (ds ++ [c])) [] (by simp))
  | @ifElse _ _ _ _ w o c e ds bs os _ _ _ hd _ hb _ hb' hts hspan =>
    have hown := hin.own hspan
    subst hts
    refine List.forall_mem_cons.mpr ⟨hin.lies hspan, List.forall_mem_append.mpr ⟨?_,
      List.forall_mem_append.mpr ⟨?_, ?_⟩⟩⟩
    · exact hd.lies (hown.part [w, o] (c :: (bs ++ e :: os)) rfl)
    · exact hb.lies (hown.part (w :: o :: (ds ++ [c])) (e :: os) (by simp))
    · exact hb'.lies (hown.part (w :: o :: (ds ++ c :: (bs ++ [e]))) [] (by simp))
  | @loop _ _ _ w o c ds bs _ _ _ hd _ hb hts hspan =>
    have hown := hin.own hspan
    subst hts
    refine List.forall_mem_cons.mpr ⟨hin.lies hspan, List.forall_mem_append.mpr ⟨?_, ?_⟩⟩
    · exact hd.lies (hown.part [w, o] (c :: bs) rfl)
    · exact hb.lies (hown.part (w :: o :: (ds ++ [c])) [] (by simp))
  | @switch _ _ _ span inner w o c b d l e ss cs bs _ _ _ hs _ _ harms _ _ hbody _ hinner hts hspan =>
    have hown := hin.own hspan
    subst hts
    have hdefault : Inside source (some span) (d :: l :: bs) :=
      hown.part (w :: o :: (ss ++ c :: b :: cs)) [e] (by simp)
    refine List.forall_mem_cons.mpr ⟨hin.lies hspan, List.forall_mem_append.mpr ⟨?_,
      List.forall_mem_append.mpr ⟨?_, List.forall_mem_cons.mpr ⟨hdefault.lies hinner, ?_⟩⟩⟩⟩
    · exact hs.lies (hown.part [w, o] (c :: b :: (cs ++ d :: l :: (bs ++ [e]))) rfl)
    · exact harms.lies (hown.part (w :: o :: (ss ++ [c, b])) (l :: (bs ++ [e])) (by simp))
    · exact hbody.lies ((hdefault.own hinner).part [d, l] [] (by simp))
  | leave _ _ hspan => exact List.forall_mem_singleton.mpr (hin.lies hspan)
  | block hb => exact hb.lies hin

theorem Block.ReadFrom.lies {b : Block} {outer : Option Span} {ts : List Token}
    (h : b.ReadFrom ts) (hin : Inside source outer ts) : ∀ n ∈ b.nodes outer, n.Lies source := by
  cases h with
  | @mk _ _ o c bs _ hbody _ hspan =>
    exact List.forall_mem_cons.mpr ⟨hin.lies hspan,
      hbody.lies ((hin.own hspan).part [o] [c] rfl)⟩

theorem StatementsFrom.lies {ss : List Statement} {outer : Option Span} {ts : List Token}
    (h : StatementsFrom ss ts) (hin : Inside source outer ts) :
    ∀ n ∈ statementsNodes outer ss, n.Lies source := by
  cases h with
  | nil => exact List.forall_mem_nil _
  | @cons _ _ fs rs hf hr =>
    exact List.forall_mem_append.mpr ⟨hf.lies (hin.part [] rs rfl),
      hr.lies (hin.part fs [] (by simp))⟩

theorem CasesFrom.lies {arms : List Case} {outer : Option Span} {ts : List Token} {after : Token}
    (h : CasesFrom arms ts after) (hin : Inside source outer (ts ++ [after])) :
    ∀ n ∈ casesNodes outer arms, n.Lies source := by
  cases h with
  | nil => exact List.forall_mem_nil _
  | @cons _ _ inner span k n l _ bs rs _ _ _ _ hbody harms hspan hstart hstop =>
    have harm : Inside source outer (k :: n :: l :: bs) := hin.part [] (rs ++ [after]) (by simp)
    have hown : Inside source (some inner) bs := by
      by_cases hbs : bs = []
      · exact ⟨harm.laid.part [k, n, l] [] (by simp), fun _ _ t ht => absurd (hbs ▸ ht) List.not_mem_nil⟩
      · exact (harm.part [k, n, l] [] (by simp)).own (isOver_body hbs hspan hstart hstop)
    refine List.forall_mem_cons.mpr ⟨harm.lies hspan, List.forall_mem_cons.mpr
      ⟨hin.lies_body hbody hspan hstart hstop, List.forall_mem_append.mpr ⟨hbody.lies hown, ?_⟩⟩⟩
    exact harms.lies (hin.part (k :: n :: l :: bs) [] (by simp))

end

theorem FurtherFrom.lies {names : List Ident} (h : FurtherFrom names ts)
    (hin : Inside source outer ts) : ∀ i ∈ names, Node.Lies source ⟨i.span, outer, false⟩ := by
  induction h with
  | nil => exact List.forall_mem_nil _
  | @cons names m i ts _ _ _ ih =>
    refine List.forall_mem_cons.mpr ⟨?_, ih (hin.part [m, i] [] (by simp))⟩
    exact (hin.part [m] ts rfl).lies i.isOver

theorem Declaration.ReadFrom.lies {d : Declaration} (h : d.ReadFrom ts)
    (hin : Inside source none ts) : ∀ n ∈ d.nodes, n.Lies source := by
  cases h with
  | @mk _ _ _ i l t s ns _ _ hnames _ _ _ hts hspan =>
    have hown := hin.own hspan
    subst hts
    refine List.forall_mem_cons.mpr ⟨hin.lies hspan, List.forall_mem_map.mpr ?_⟩
    refine List.forall_mem_cons.mpr ⟨?_, hnames.lies (hown.part [i] [l, t, s] rfl)⟩
    exact (hown.part [] (ns ++ [l, t, s]) rfl).lies i.isOver

theorem DeclarationsFrom.lies {ds : List Declaration} (h : DeclarationsFrom ds ts)
    (hin : Inside source none ts) : ∀ n ∈ ds.flatMap Declaration.nodes, n.Lies source := by
  induction h with
  | nil => exact List.forall_mem_nil _
  | @cons _ _ fs rs hf _ ih =>
    rw [List.flatMap_cons]
    exact List.forall_mem_append.mpr ⟨hf.lies (hin.part [] rs rfl), ih (hin.part fs [] (by simp))⟩

theorem Program.ReadFrom.lies {p : Program} (h : p.ReadFrom ts) (hlaid : Laid source ts) :
    ∀ n ∈ p.nodes, n.Lies source := by
  have hin : Inside source none ts := ⟨hlaid, nofun⟩
  cases h with
  | @mk _ _ ds bs hd hb =>
    exact List.forall_mem_append.mpr ⟨hd.lies (hin.part [] bs rfl),
      hb.lies (hin.part ds [] (by simp))⟩

end

theorem Node.Trails.nested_iff {source : List Char} {n : Node} (h : n.Trails source) :
    n.Nested ↔ n.span.first = n.span.past := by
  have hle := h.gap.le
  obtain ⟨arm, harm, hordered, hsame⟩ := h.arm
  constructor
  · intro hn
    have := hn.ordered
    omega
  · intro heq
    refine ⟨Nat.le_of_eq heq, ?_⟩
    intro o ho
    obtain rfl : arm = o := Option.some.inj (harm.symm.trans ho)
    omega

/-- The spans in a tree that is read from a text are in order, and each within the one around it, except for
the bodies of cases that have no statement. Such a body ends with its case and starts behind the gap after
it, so it is nested only if there is none. -/
theorem Program.nodes_nested {source file : String} {p : Program}
    (hsize : Text.byteSize source.toList < UInt32.size)
    (hp : Program.ofSource source file = .ok p) :
    (∀ n ∈ p.nodes, n.isEmptyArm = false → n.Nested) ∧
    ∀ n ∈ p.nodes, n.isEmptyArm = true →
      n.Trails source.toList ∧ (n.Nested ↔ n.span.first = n.span.past) := by
  have hlies : ∀ n ∈ p.nodes, n.Lies source.toList := by
    rw [Program.ofSource] at hp
    cases htokens : tokenize source file with
    | error error =>
      rw [htokens] at hp
      cases hp
    | ok tokens =>
      rw [htokens] at hp
      obtain ⟨ts, rest, rfl, hread, -⟩ := Program.readFrom_of_ofTokens hp
      exact hread.lies ((laid_of_tokenize hsize htokens).part [] rest rfl)
  constructor
  · intro n hn hfull
    exact (hlies n hn).nested hfull
  · intro n hn hempty
    have htrails := (hlies n hn).trails hempty
    exact ⟨htrails, htrails.nested_iff⟩

/-- Two cases without statements, of which the first has a gap after it, and tests and parentheses within each
other. -/
def idle : String :=
  "n:int;\x7bswitch(n)\x7bcase 1: case 2:default:if(!(n<(2)))n=3;\x7d\x7d"

theorem Program.idle_nodes_nested :
    ∃ p, Text.byteSize idle.toList < UInt32.size ∧ Program.ofSource idle "idle.ou" = .ok p ∧
      ((p.nodes.filter Node.isEmptyArm).map fun n => (n.span.first, n.span.past)) =
        [(25, 24), (32, 32)] ∧
      (∀ n ∈ p.nodes, n.isEmptyArm = false → n.Nested) ∧
      ∀ n ∈ p.nodes, n.isEmptyArm = true →
        n.Trails idle.toList ∧ (n.Nested ↔ n.span.first = n.span.past) := by
  have hsize : Text.byteSize idle.toList < UInt32.size := by decide +kernel
  have harms : ((Program.ofSource idle "idle.ou").toOption.map fun p =>
      (p.nodes.filter Node.isEmptyArm).map fun n => (n.span.first, n.span.past)) =
        some [(25, 24), (32, 32)] := by decide +kernel
  cases hp : Program.ofSource idle "idle.ou" with
  | error error =>
    rw [hp] at harms
    cases harms
  | ok p =>
    rw [hp] at harms
    exact ⟨p, hsize, rfl, Option.some.inj harms, nodes_nested hsize hp⟩

/-- A case without statements, and a blank after it. -/
def hollow : String :=
  "\x7bswitch(1)\x7bcase 1: default:\x7d\x7d"

/-- The body of the case starts after its end, and after the end of the case. -/
theorem Program.hollow_not_nested :
    Text.byteSize hollow.toList < UInt32.size ∧
      ∃ p, Program.ofSource hollow "prog.ou" = .ok p ∧
        ∃ n ∈ p.nodes, n.span.first = 19 ∧ n.span.past = 18 ∧
          (n.outer.map fun o => (o.first, o.past)) = some (11, 18) ∧ ¬ n.Nested := by
  have hfound : ((Program.ofSource hollow "prog.ou").toOption.bind fun p =>
      p.nodes.find? fun n => n.span.first == 19 && n.span.past == 18 &&
        (n.outer.map fun o => (o.first, o.past)) == some (11, 18)).isSome = true := by
    decide +kernel
  refine ⟨by decide +kernel, ?_⟩
  cases hp : Program.ofSource hollow "prog.ou" with
  | error error =>
    rw [hp] at hfound
    cases hfound
  | ok p =>
    rw [hp] at hfound
    obtain ⟨n, hn⟩ := Option.isSome_iff_exists.mp hfound
    have hspan := List.find?_some hn
    rw [Bool.and_eq_true, Bool.and_eq_true, beq_iff_eq, beq_iff_eq, beq_iff_eq] at hspan
    obtain ⟨⟨hfirst, hpast⟩, houter⟩ := hspan
    refine ⟨p, rfl, n, List.mem_of_find?_eq_some hn, hfirst, hpast, houter, ?_⟩
    intro hnested
    have := hnested.ordered
    omega

end Cpl
