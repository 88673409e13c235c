import Cpl.Compile
import Cpl.Proofs.Grammar.Soundness
import Cpl.Proofs.Lexicon
import Cpl.Proofs.Lines
import Cpl.Proofs.Operands

/-!
# Reading listings back

Operands are printed without any mark of their kind. All the same the text of a compiled program says what
its instructions are:

* no mnemonic and no operand has a blank or a line feed in it (`Operand.Spelled.solid`), so the fields of
  a line can be told (`Instruction.fields_eq_of_text`);
* the opcode says which operand is a jump (`Opcode.jumps`), and of the others the names begin with a
  letter, the literals with a digit (`Operand.Spelled.eq_of_text`);
* each line of the text is that of one instruction (`Listing.lines_renderFrom`).

The main statement is `compileSource_render_determines`.
-/

namespace Cpl

/-! ## Fields -/

/-- Has no blank and no line feed. -/
def Solid (cs : List Char) : Prop :=
  ∀ c ∈ cs, c ≠ ' ' ∧ c ≠ '\n'

theorem solid_of_forall {P : Char → Bool} {cs : List Char} (h : ∀ c ∈ cs, P c = true)
    (hblank : P ' ' = false) (hfeed : P '\n' = false) : Solid cs := by
  intro c hc
  constructor
  · rintro rfl
    exact Bool.false_ne_true (hblank.symm.trans (h _ hc))
  · rintro rfl
    exact Bool.false_ne_true (hfeed.symm.trans (h _ hc))

/-- The mnemonic and the texts of the operands. -/
def Instruction.fields : Instruction → List (List Char)
  | .quad opcode operands => opcode.mnemonic.toList :: operands.map fun o => o.text.toList
  | .openBreak _ => ["%BREAK".toList]

theorem intercalate_cons (first : List Char) (rest : List (List Char)) :
    [' '].intercalate (first :: rest) = first ++ rest.flatMap (' ' :: ·) := by
  induction rest generalizing first with
  | nil => simp
  | cons second rest ih => rw [List.intercalate_cons_cons, ih]; simp

theorem Instruction.toList_text (i : Instruction) : i.text.toList = [' '].intercalate i.fields := by
  cases i with
  | quad opcode operands =>
    rw [text, String.toList_append, String.toList_join, fields, intercalate_cons, List.flatMap_map,
      List.flatMap_map]
    congr
    funext o
    exact String.toList_append
  | openBreak position => simp [text, fields]

/-- The fields of a line can be told from its text. -/
theorem Instruction.fields_eq_of_text {i i' : Instruction} (h : ∀ f ∈ i.fields, Solid f)
    (h' : ∀ f ∈ i'.fields, Solid f) (heq : i.text = i'.text) : i.fields = i'.fields := by
  have hblank {fs : List (List Char)} (hs : ∀ f ∈ fs, Solid f) : ∀ f ∈ fs, ' ' ∉ f :=
    fun f hf hc => (hs f hf ' ' hc).1 rfl
  have hne (i : Instruction) : i.fields ≠ [] := by cases i <;> exact List.cons_ne_nil _ _
  have htext := congrArg (List.splitOn ' ' ∘ String.toList) heq
  simp only [Function.comp_apply, toList_text] at htext
  rwa [List.splitOn_intercalate ' ' (hblank h) (hne i),
    List.splitOn_intercalate ' ' (hblank h') (hne i')] at htext

/-! ## Opcodes -/

namespace Opcode

theorem mnemonic_inj {op op' : Opcode} (h : op.mnemonic = op'.mnemonic) : op = op' := by
  have htable : ∀ op ∈ all, ∀ op' ∈ all, op.mnemonic = op'.mnemonic → op = op' := by decide +kernel
  exact htable op (mem_all op) op' (mem_all op') h

theorem solid_mnemonic (op : Opcode) : Solid op.mnemonic.toList := by
  have htable : ∀ op ∈ all, op.mnemonic.toList.all Char.isAlpha = true := by decide +kernel
  exact solid_of_forall (List.all_eq_true.mp (htable op (mem_all op))) rfl rfl

/-- For each operand, is it a jump. -/
def jumps : Opcode → List Bool
  | assign _ => [false, false]
  | input _ => [false]
  | print _ => [false]
  | arith _ _ => [false, false, false]
  | compare _ _ => [false, false, false]
  | convert _ => [false, false]
  | jump => [true]
  | jumpIfZero => [true, false]
  | halt => []

end Opcode

/-! ## Operands -/

namespace Operand

def isJump : Operand → Bool
  | name _ => false
  | literal _ => false
  | jump _ => true

@[simp] theorem isJump_name (slot : String) : (name slot).isJump = false := rfl

/-- A name of letters and digits with a letter first, a literal of digits and a point with a digit first,
or a line. -/
inductive Spelled : Operand → Prop
  | name {c : Char} {cs : List Char} : c.isAlpha = true → (∀ d ∈ cs, d.isAlphanum = true) →
      Spelled (.name (String.ofList (c :: cs)))
  | literal {c : Char} {cs : List Char} : c.isDigit = true →
      (∀ d ∈ cs, (d.isDigit || d == '.') = true) → Spelled (.literal ⟨String.ofList (c :: cs)⟩)
  | line (number : Nat) : Spelled (.jump (.line number))

theorem Spelled.solid {o : Operand} (h : o.Spelled) : Solid o.text.toList := by
  cases h with
  | @name c cs hc hcs =>
    rw [text, String.toList_ofList]
    refine solid_of_forall (List.forall_mem_cons.mpr ⟨?_, hcs⟩) rfl rfl
    rw [Char.isAlphanum, hc, Bool.true_or]
  | @literal c cs hc hcs =>
    rw [text, String.toList_ofList]
    refine solid_of_forall (List.forall_mem_cons.mpr ⟨?_, hcs⟩) rfl rfl
    rw [hc, Bool.true_or]
  | line number => exact solid_of_forall (fun _ => isDigit_of_mem_toString) rfl rfl

/-- Operands of which it is known whether they are jumps are told by their texts. -/
theorem Spelled.eq_of_text {o o' : Operand} (h : o.Spelled) (h' : o'.Spelled)
    (hjump : o.isJump = o'.isJump) (htext : o.text = o'.text) : o = o' := by
  cases h with
  | @name c cs hc hcs =>
    cases h' with
    | name hc' hcs' => exact congrArg Operand.name htext
    | @literal c' cs' hc' hcs' =>
      obtain ⟨rfl, -⟩ := List.cons.inj (String.ofList_injective htext)
      rw [Text.isAlpha_of_isDigit hc'] at hc
      cases hc
    | line number => cases hjump
  | @literal c cs hc hcs =>
    cases h' with
    | @name c' cs' hc' hcs' =>
      obtain ⟨rfl, -⟩ := List.cons.inj (String.ofList_injective htext)
      rw [Text.isAlpha_of_isDigit hc] at hc'
      cases hc'
    | literal hc' hcs' => exact congrArg (fun spelling => Operand.literal ⟨spelling⟩) htext
    | line number => cases hjump
  | line number =>
    cases h' with
    | name hc' hcs' => cases hjump
    | literal hc' hcs' => cases hjump
    | line number' =>
      have hnumber : toString number = toString number' := htext
      rw [toString_inj hnumber]

end Operand

/-! ## Instructions -/

/-- The operands are of the kinds that the opcode has, and each is spelled as those of its kind. -/
inductive Instruction.Legible : Instruction → Prop
  | quad {opcode : Opcode} {operands : List Operand} :
      operands.map Operand.isJump = opcode.jumps → (∀ o ∈ operands, o.Spelled) →
      Legible (.quad opcode operands)

theorem operands_eq_of_text {os os' : List Operand} (h : ∀ o ∈ os, o.Spelled)
    (h' : ∀ o ∈ os', o.Spelled) (hjump : os.map Operand.isJump = os'.map Operand.isJump)
    (htext : (os.map fun o => o.text.toList) = os'.map fun o => o.text.toList) : os = os' := by
  induction os generalizing os' with
  | nil =>
    cases os' with
    | nil => rfl
    | cons o' os' => cases htext
  | cons o os ih =>
    cases os' with
    | nil => cases htext
    | cons o' os' =>
      rw [List.map_cons, List.map_cons, List.cons.injEq] at hjump htext
      rw [List.forall_mem_cons] at h h'
      have ho := h.1.eq_of_text h'.1 hjump.1 (String.toList_injective htext.1)
      rw [ho, ih h.2 h'.2 hjump.2 htext.2]

namespace Instruction.Legible

variable {i i' : Instruction}

theorem solid (h : i.Legible) : ∀ f ∈ i.fields, Solid f := by
  cases h with
  | @quad opcode operands hjumps hspelled =>
    refine List.forall_mem_cons.mpr ⟨opcode.solid_mnemonic, fun f hf => ?_⟩
    obtain ⟨o, ho, rfl⟩ := List.mem_map.mp hf
    exact (hspelled o ho).solid

/-- The text of an instruction is one line. -/
theorem feed_notMem_text (h : i.Legible) : '\n' ∉ i.text.toList := by
  intro hmem
  rw [toList_text] at hmem
  cases h with
  | @quad opcode operands hjumps hspelled =>
    have hsolid := (Legible.quad hjumps hspelled).solid
    rw [fields, intercalate_cons, List.mem_append] at hmem
    rcases hmem with hmem | hmem
    · exact (hsolid _ List.mem_cons_self _ hmem).2 rfl
    · obtain ⟨f, hf, hc⟩ := List.mem_flatMap.mp hmem
      rcases List.mem_cons.mp hc with hc | hc
      · cases hc
      · exact (hsolid f (List.mem_cons_of_mem _ hf) _ hc).2 rfl

theorem eq_of_text (h : i.Legible) (h' : i'.Legible) (htext : i.text = i'.text) : i = i' := by
  have hfields := fields_eq_of_text h.solid h'.solid htext
  cases h with
  | @quad opcode operands hjumps hspelled =>
    cases h' with
    | @quad opcode' operands' hjumps' hspelled' =>
      obtain ⟨hmnemonic, htexts⟩ := List.cons.inj hfields
      obtain rfl := Opcode.mnemonic_inj (String.toList_injective hmnemonic)
      -- the opcode says which operands are jumps
      rw [operands_eq_of_text hspelled hspelled' (hjumps.trans hjumps'.symm) htexts]

end Instruction.Legible

/-! ## Compiled programs -/

theorem Operand.HasType.isJump {s : Symbols} {o : Operand} {type : NumType} (h : o.HasType s type) :
    o.isJump = false := by
  cases h <;> rfl

theorem Instruction.WellTyped.map_isJump {s : Symbols} {opcode : Opcode} {operands : List Operand}
    (h : (Instruction.quad opcode operands).WellTyped s) :
    operands.map Operand.isJump = opcode.jumps := by
  cases h with
  | assign hd hv => simp [Opcode.jumps, hv.isJump]
  | input hd => rfl
  | print hv => simp [Opcode.jumps, hv.isJump]
  | arith hd hl hr =>
    simp [Opcode.jumps, hl.isJump, hr.isJump]
  | compare hd hl hr =>
    simp [Opcode.jumps, hl.isJump, hr.isJump]
  | toFloat hd hv => simp [Opcode.jumps, hv.isJump]
  | toInt hd hv => simp [Opcode.jumps, hv.isJump]
  | jump => rfl
  | jumpIfZero hc => rfl
  | halt => rfl

theorem Operand.StemsFrom.spelled {ws : List Word} {o : Operand} (h : o.StemsFrom ws)
    (hws : ∀ w ∈ ws, w.Lexical) : o.Spelled := by
  cases h with
  | declared hmem =>
    obtain ⟨c, cs, rfl, hc, hcs⟩ := (hws _ hmem).exists_letter
    exact .name hc hcs
  | temporary n =>
    have hname : temporaryName n = String.ofList ('t' :: (toString n).toList) := by
      rw [← toList_temporaryName, String.ofList_toList]
    rw [hname]
    refine .name rfl fun d hd => ?_
    rw [Char.isAlphanum, isDigit_of_mem_toString hd, Bool.or_true]
  | @literal l hmem =>
    obtain ⟨spelling⟩ := l
    obtain ⟨c, cs, rfl, hc, hcs⟩ := (hws _ hmem).exists_digit
    exact .literal hc hcs
  | zero => exact @Spelled.literal '0' [] rfl (List.forall_mem_nil _)
  | one => exact @Spelled.literal '1' [] rfl (List.forall_mem_nil _)
  | line number => exact .line number

/-- The words of a program that is read from a text are as words of a text are. -/
theorem Program.lexical_of_ofSource {source file : String} {p : Program}
    (h : Program.ofSource source file = .ok p) : ∀ w ∈ p.words, w.Lexical := by
  obtain ⟨ts, ht, hp⟩ := except_bind_eq_ok.mp h
  obtain ⟨init, mark, rfl, hproper⟩ := proper_of_tokenize ht
  rw [ofTokens, Cursor.ofTokens_concat init rfl] at hp
  have hc : (⟨[], init, ⟨"EOF", ⟨mark, mark⟩⟩⟩ : Cursor).Proper := hproper
  obtain ⟨c, hpasses, -⟩ := (Cursor.ends_program _ hc).of_result_eq_ok hp
  obtain ⟨passed, hahead, hwords⟩ := hpasses.ahead
  intro w hw
  obtain ⟨t, hm, rfl⟩ := List.mem_map.mp (hwords ▸ hw)
  have hinit : t ∈ init := by
    rw [show init = passed ++ c.ahead from hahead]
    exact List.mem_append_left _ hm
  exact lexical_of_tokenize ht (List.mem_append_left _ hinit) (hproper t hinit).isWritten

theorem legible_of_compileSource {source file : String} {q : Listing}
    (h : compileSource source file = .ok q) : ∀ i ∈ q.instructions, i.Legible := by
  obtain ⟨p, hp, hq⟩ := except_bind_eq_ok.mp h
  obtain ⟨s, htyped⟩ := Program.exists_wellTyped_of_compile hq
  intro i hi
  have hspelled : ∀ o ∈ i.operands, o.Spelled := fun o ho =>
    (Program.stemsFrom_of_compile hq i hi o ho).spelled (Program.lexical_of_ofSource hp)
  cases i with
  | quad opcode operands => exact .quad (htyped _ hi).map_isJump hspelled
  | openBreak position => cases (Program.closed_of_compile hq).openBreak? _ hi

/-! ## Lines -/

namespace Listing

/-- What is written before the line of the given number. -/
def heading (number : Nat) : List Char :=
  (toString number ++ ":\t").toList

theorem feed_notMem_heading (number : Nat) : '\n' ∉ heading number := by
  intro h
  rw [heading, String.toList_append, List.mem_append] at h
  rcases h with h | h
  · exact Text.feed_notMem_toString number h
  · revert h
    decide

theorem feed_notMem_ite_heading (numbered : Bool) (number : Nat) :
    '\n' ∉ if numbered then heading number else [] := by
  split
  · exact feed_notMem_heading number
  · exact List.not_mem_nil

/-- Each line of the text is that of an instruction, with what is written before and after it. -/
theorem lines_renderFrom (numbered : Bool) (number : Nat) {is : List Instruction}
    (h : ∀ i ∈ is, i.Legible) :
    Text.lines (renderFrom numbered number (is.map Instruction.text)).toList = is.mapIdx fun k i =>
      (if numbered then heading (k + number) else []) ++ i.text.toList ++ ['\n'] := by
  induction is generalizing number with
  | nil => rfl
  | cons i is ih =>
    rw [List.forall_mem_cons] at h
    have hhead : '\n' ∉ (if numbered then heading number else []) ++ i.text.toList := by
      rw [List.mem_append, not_or]
      exact ⟨feed_notMem_ite_heading numbered number, h.1.feed_notMem_text⟩
    have htext : (renderFrom numbered number ((i :: is).map Instruction.text)).toList =
        ((if numbered then heading number else []) ++ i.text.toList) ++
          '\n' :: (renderFrom numbered (number + 1) (is.map Instruction.text)).toList := by
      cases numbered <;> simp [renderFrom, heading]
    rw [htext, Text.lines_append_feed hhead, ih (number + 1) h.2, List.mapIdx_cons]
    simp only [Nat.zero_add, Nat.add_assoc, Nat.add_comm 1]

section

variable {q q' : Listing} {numbered : Bool}

theorem lines_render (h : ∀ i ∈ q.instructions, i.Legible) (numbered : Bool) :
    Text.lines (q.render numbered).toList = q.instructions.mapIdx fun k i =>
      (if numbered then heading (k + 1) else []) ++ i.text.toList ++ ['\n'] :=
  lines_renderFrom numbered 1 h

/-- Line by line, the text says what the instructions are. -/
theorem instructions_eq_of_render (h : ∀ i ∈ q.instructions, i.Legible)
    (h' : ∀ i ∈ q'.instructions, i.Legible) (heq : q.render numbered = q'.render numbered) :
    q.instructions = q'.instructions := by
  have hlines : Text.lines (q.render numbered).toList = Text.lines (q'.render numbered).toList := by
    rw [heq]
  rw [lines_render h, lines_render h'] at hlines
  refine List.ext_getElem? fun k => ?_
  have hk := congrArg (fun ls : List (List Char) => ls[k]?) hlines
  simp only [List.getElem?_mapIdx] at hk
  cases hi : q.instructions[k]? with
  | none =>
    rw [hi] at hk
    exact (Option.map_eq_none_iff.mp hk.symm).symm
  | some i =>
    rw [hi] at hk
    obtain ⟨i', hi', hline⟩ := Option.map_eq_some_iff.mp hk.symm
    have htext := List.append_cancel_left (List.append_cancel_right hline)
    have heq := (h i (List.mem_of_getElem? hi)).eq_of_text (h' i' (List.mem_of_getElem? hi'))
      (String.toList_injective htext.symm)
    rw [hi', heq]

theorem length_lines_render (h : ∀ i ∈ q.instructions, i.Legible) (numbered : Bool) :
    (Text.lines (q.render numbered).toList).length = q.size := by
  rw [lines_render h, List.length_mapIdx]
  rfl

/-- Every line of the text is closed by its only line feed. -/
theorem closed_of_mem_lines_render (h : ∀ i ∈ q.instructions, i.Legible) {line : List Char}
    (hline : line ∈ Text.lines (q.render numbered).toList) :
    ∃ text, line = text ++ ['\n'] ∧ '\n' ∉ text := by
  rw [lines_render h, List.mem_mapIdx] at hline
  obtain ⟨k, hk, rfl⟩ := hline
  refine ⟨_, rfl, ?_⟩
  rw [List.mem_append, not_or]
  exact ⟨feed_notMem_ite_heading numbered (k + 1), (h _ (List.getElem_mem hk)).feed_notMem_text⟩

theorem heading_isPrefix (h : ∀ i ∈ q.instructions, i.Legible) {k : Nat} {line : List Char}
    (hline : (Text.lines (q.render true).toList)[k]? = some line) : heading (k + 1) <+: line := by
  rw [lines_render h, List.getElem?_mapIdx] at hline
  obtain ⟨i, -, rfl⟩ := Option.map_eq_some_iff.mp hline
  rw [if_pos rfl, List.append_assoc]
  exact List.prefix_append _ _

/-- Without their headings the numbered lines are the bare ones. -/
theorem flatten_drop_heading (h : ∀ i ∈ q.instructions, i.Legible) :
    ((Text.lines (q.render true).toList).mapIdx fun k line =>
      line.drop (heading (k + 1)).length).flatten = (q.render false).toList := by
  have hdrop : (Text.lines (q.render true).toList).mapIdx (fun k line =>
      line.drop (heading (k + 1)).length) = Text.lines (q.render false).toList := by
    rw [lines_render h, lines_render h, List.mapIdx_mapIdx]
    congr
    funext k i
    simp
  rw [hdrop, Text.lines_flatten]

end

end Listing

/-- Two compiled programs with the same text, both with or both without line numbers, have the same
instructions. The text has a line for each instruction, closed by a line feed, and without the numbers
before its lines the one text is the other. -/
theorem compileSource_render_determines {source file source' file' : String} {q q' : Listing}
    (hq : compileSource source file = .ok q) (hq' : compileSource source' file' = .ok q')
    (numbered : Bool) :
    (q.render numbered = q'.render numbered ↔ q.instructions = q'.instructions) ∧
    ((Text.lines (q.render numbered).toList).length = q.size ∧
      ∀ line ∈ Text.lines (q.render numbered).toList, ∃ text, line = text ++ ['\n'] ∧ '\n' ∉ text) ∧
    (∀ k line, (Text.lines (q.render true).toList)[k]? = some line →
      Listing.heading (k + 1) <+: line) ∧
    ((Text.lines (q.render true).toList).mapIdx fun k line =>
      line.drop (Listing.heading (k + 1)).length).flatten = (q.render false).toList := by
  have h := legible_of_compileSource hq
  have h' := legible_of_compileSource hq'
  refine ⟨⟨Listing.instructions_eq_of_render h h', fun heq => ?_⟩,
    ⟨Listing.length_lines_render h numbered, fun line => Listing.closed_of_mem_lines_render h⟩,
    fun k line => Listing.heading_isPrefix h, Listing.flatten_drop_heading h⟩
  rw [Listing.render, Listing.render, Listing.lines, Listing.lines, heq]

/-- Counts to three. -/
def counter : String :=
  "i: int; \x7b while (i < 3) i = i + 1; \x7d"

/-- Does the same, with a variable that it does not use and a block that it does not need. -/
def roundabout : String :=
  "k: float; i: int;\n\x7b while (i < 3) \x7b /* up */ i = i + 1; \x7d \x7d"

theorem counter_render_determines :
    ∃ q q', compileSource counter "counter.ou" = .ok q ∧
      compileSource roundabout "roundabout.ou" = .ok q' ∧ q.render true = q'.render true ∧
      q.instructions = q'.instructions ∧ (Text.lines (q.render true).toList).length = q.size ∧
      (∀ line ∈ Text.lines (q.render true).toList, ∃ text, line = text ++ ['\n'] ∧ '\n' ∉ text) ∧
      (∀ k line, (Text.lines (q.render true).toList)[k]? = some line →
        Listing.heading (k + 1) <+: line) ∧
      ((Text.lines (q.render true).toList).mapIdx fun k line =>
        line.drop (Listing.heading (k + 1)).length).flatten = (q.render false).toList := by
  have htext : (compileSource counter "counter.ou").toOption.map (·.render true) =
      (compileSource roundabout "roundabout.ou").toOption.map (·.render true) := by decide +kernel
  have hok : (compileSource counter "counter.ou").isOk = true := by decide +kernel
  cases hq : compileSource counter "counter.ou" with
  | error error => rw [hq] at hok; cases hok
  | ok q =>
    cases hq' : compileSource roundabout "roundabout.ou" with
    | error error => rw [hq, hq'] at htext; cases htext
    | ok q' =>
      rw [hq, hq'] at htext
      have heq := Option.some.inj htext
      obtain ⟨hiff, ⟨hsize, hclosed⟩, hheads, hbare⟩ := compileSource_render_determines hq hq' true
      exact ⟨q, q', rfl, rfl, heq, hiff.mp heq, hsize, hclosed, hheads, hbare⟩

end Cpl
