import RefLifetime.Proofs.Keeping

/-!
# Messages and their arguments

The arguments of a message are filled in one after another. In a template whose holes are set apart
by text (`Template.Spaced`), each hole then holds its argument, with the later arguments filled into
that (`Template.fill_eq`). `Code.arity` is the number of arguments that the wording of a code calls
for, and every diagnostic of an analysis has that many.
-/

namespace RefLifetime

/-! ### Replacing -/

namespace Text

variable {first : Char} {tail replacement a b : List Char}

private theorem infix_append_of_not_mem (h : first ∉ a) :
    first :: tail <:+: a ++ b ↔ first :: tail <:+: b := by
  induction a with
  | nil => rfl
  | cons c rest ih =>
    obtain ⟨hc, hr⟩ := not_or.mp (mt List.mem_cons.mpr h)
    rw [List.cons_append, List.infix_cons_iff, ih hr, List.cons_prefix_cons]
    exact or_iff_right fun hp => hc hp.1

/-- Text without the first character of the pattern is kept. -/
theorem replaceFrom_append_of_not_mem (h : first ∉ a) :
    replaceFrom (first :: tail) replacement 0 (a ++ b) =
      a ++ replaceFrom (first :: tail) replacement 0 b := by
  induction a with
  | nil => rfl
  | cons c rest ih =>
    obtain ⟨hc, hr⟩ := not_or.mp (mt List.mem_cons.mpr h)
    have hp : List.isPrefixOf (first :: tail) (c :: (rest ++ b)) = false := by
      rw [List.isPrefixOf, beq_false_of_ne hc, Bool.false_and]
    rw [List.cons_append, replaceFrom, hp, ih hr]
    rfl

private theorem replaceFrom_of_not_mem (h : first ∉ a) :
    replaceFrom (first :: tail) replacement 0 a = a := by
  have hkeep : replaceFrom (first :: tail) replacement 0 (a ++ []) = a ++ [] :=
    replaceFrom_append_of_not_mem h
  rwa [List.append_nil] at hkeep

/-- If the first character of `b` can only stand at the start of the pattern, then no occurrence
reaches into `b`. -/
theorem prefix_append_iff (ha : a ≠ []) (hb : ∀ c ∈ b.head?, c ∉ tail) :
    first :: tail <+: a ++ b ↔ first :: tail <+: a := by
  constructor
  · intro h
    rcases List.prefix_or_prefix_of_prefix h (List.prefix_append a b) with hp | ⟨beyond, ho⟩
    · exact hp
    · cases beyond with
      | nil =>
        rw [List.append_nil] at ho
        exact ho ▸ List.prefix_rfl
      -- The pattern would go on in `b`, with the character that is not in its tail.
      | cons c beyond =>
        rw [← ho] at h
        obtain ⟨others, hothers⟩ := (List.prefix_append_right_inj a).mp h
        obtain ⟨d, rest, rfl⟩ := List.exists_cons_of_ne_nil ha
        obtain ⟨-, htail⟩ := List.cons.inj ho
        refine absurd ?_ (hb c (by rw [← hothers]; rfl))
        rw [← htail]
        exact List.mem_append_right _ List.mem_cons_self
  · exact fun h => h.trans (List.prefix_append a b)

/-- Replacing stops at such a place and goes on after it. -/
theorem replaceFrom_append (hb : ∀ c ∈ b.head?, c ∉ tail) {skip : Nat} (hs : skip ≤ a.length) :
    replaceFrom (first :: tail) replacement skip (a ++ b) =
      replaceFrom (first :: tail) replacement skip a ++
        replaceFrom (first :: tail) replacement 0 b := by
  induction a generalizing skip with
  | nil =>
    cases Nat.le_zero.mp hs
    rfl
  | cons c rest ih =>
    cases skip with
    | succ skip => exact ih (Nat.le_of_succ_le_succ hs)
    | zero =>
      have hp : (first :: tail).isPrefixOf (c :: (rest ++ b)) =
          (first :: tail).isPrefixOf (c :: rest) := by
        rw [Bool.eq_iff_iff, List.isPrefixOf_iff_prefix, List.isPrefixOf_iff_prefix]
        exact prefix_append_iff (List.cons_ne_nil c rest) hb
      rw [List.cons_append, replaceFrom, replaceFrom, hp]
      split
      · next hin =>
        have hle : (first :: tail).length - 1 ≤ rest.length :=
          Nat.sub_le_of_le_add (List.isPrefixOf_iff_prefix.mp hin).length_le
        rw [ih hle, List.append_assoc]
      · rw [ih (Nat.zero_le _), List.cons_append]

/-- After an occurrence the search goes on behind it. -/
theorem replaceFrom_skip (pattern replacement skipped text : List Char) :
    replaceFrom pattern replacement skipped.length (skipped ++ text) =
      replaceFrom pattern replacement 0 text := by
  induction skipped with
  | nil => rfl
  | cons c rest ih => exact ih

/-- An occurrence at the start is replaced. -/
theorem replaceFrom_occurrence (first : Char) (tail replacement text : List Char) :
    replaceFrom (first :: tail) replacement 0 (first :: tail ++ text) =
      replacement ++ replaceFrom (first :: tail) replacement 0 text := by
  have hp : (first :: tail).isPrefixOf (first :: (tail ++ text)) = true :=
    List.isPrefixOf_iff_prefix.mpr (List.prefix_append _ _)
  rw [List.cons_append, replaceFrom, if_pos hp, List.length_cons, Nat.add_sub_cancel,
    replaceFrom_skip]

/-- The pattern itself is replaced as a whole. -/
theorem replaceFrom_self :
    replaceFrom (first :: tail) replacement 0 (first :: tail) = replacement := by
  have hwhole := replaceFrom_occurrence first tail replacement []
  rw [List.append_nil] at hwhole
  exact hwhole.trans (List.append_nil _)

end Text

/-! ### Holes -/

namespace Piece

/-- The characters that can stand in a hole after its first one. -/
def closes (c : Char) : Bool := c.isDigit || c == '\x7d'

/-- A hole is an opening brace, a number and a closing brace. -/
theorem holeText_toList (index : Nat) :
    (holeText index).toList = '\x7b' :: (index.repr.toList ++ ['\x7d']) := by
  simp [holeText]

private theorem isDigit_of_mem_repr {index : Nat} {c : Char} (h : c ∈ index.repr.toList) :
    c.isDigit = true := by
  rw [Nat.repr, String.toList_ofList] at h
  exact Nat.isDigit_of_mem_toDigits (by decide) (by decide) h

/-- Behind its opening brace a hole has digits and a closing brace only. -/
theorem closes_of_mem {index : Nat} {c : Char} (h : c ∈ index.repr.toList ++ ['\x7d']) :
    closes c = true := by
  rcases List.mem_append.mp h with h | h
  · rw [closes, isDigit_of_mem_repr h, Bool.true_or]
  · rw [List.mem_singleton.mp h]
    decide

private theorem repr_injective {i j : Nat} (h : i.repr.toList = j.repr.toList) : i = j := by
  simp only [Nat.repr, String.toList_ofList] at h
  rw [← Nat.ofDigitChars_ten_toDigits (n := i), h, Nat.ofDigitChars_ten_toDigits]

private theorem takeWhile_repr (index : Nat) (rest : List Char) :
    (index.repr.toList ++ '\x7d' :: rest).takeWhile Char.isDigit = index.repr.toList := by
  rw [List.takeWhile_append_of_pos fun _ => isDigit_of_mem_repr, List.takeWhile_cons_of_neg,
    List.append_nil]
  decide

/-- Holes are told apart by how they begin. -/
theorem holeText_prefix_iff {i j : Nat} {rest : List Char} :
    (holeText i).toList <+: (holeText j).toList ++ rest ↔ i = j := by
  constructor
  · rintro ⟨others, h⟩
    simp only [holeText_toList, List.cons_append, List.append_assoc, List.nil_append] at h
    have hdigits := congrArg (List.takeWhile Char.isDigit) (List.cons.inj h).2
    rw [takeWhile_repr, takeWhile_repr] at hdigits
    exact repr_injective hdigits
  · rintro rfl
    exact List.prefix_append _ _

private theorem not_mem_tail (index : Nat) : '\x7b' ∉ index.repr.toList ++ ['\x7d'] := by
  intro h
  exact absurd (closes_of_mem h) (by decide)

private theorem holeText_infix_append {i j : Nat} {rest : List Char} :
    (holeText i).toList <:+: (holeText j).toList ++ rest ↔
      i = j ∨ (holeText i).toList <:+: rest := by
  have hprefix := @holeText_prefix_iff i j rest
  rw [holeText_toList, holeText_toList, List.cons_append] at *
  rw [List.infix_cons_iff, hprefix, Text.infix_append_of_not_mem (not_mem_tail j)]

private theorem replaceAll_self (index : Nat) (arg : String) :
    Text.replaceAll (holeText index) arg (holeText index) = arg := by
  rw [Text.replaceAll, ← String.toList_inj, String.toList_ofList, holeText_toList,
    Text.replaceFrom_self]

/-- Other holes stay as they are. -/
theorem replaceAll_of_ne {i j : Nat} (h : i ≠ j) (arg : String) :
    Text.replaceAll (holeText i) arg (holeText j) = holeText j := by
  have hp : ¬ List.isPrefixOf (holeText i).toList (holeText j).toList = true := by
    rw [List.isPrefixOf_iff_prefix, ← List.append_nil (holeText j).toList, holeText_prefix_iff]
    exact h
  rw [holeText_toList, holeText_toList] at hp
  rw [Text.replaceAll, ← String.toList_inj, String.toList_ofList, holeText_toList i,
    holeText_toList j, Text.replaceFrom, if_neg hp, Text.replaceFrom_of_not_mem (not_mem_tail j)]

end Piece

/-! ### Templates -/

/-- A part of a template with `content` in the holes. -/
def Piece.fill (content : Nat → String) : Piece → String
  | .text s => s
  | .hole index => content index

namespace Template

/-- A template with `content` in the holes. -/
def renderWith (content : Nat → String) (template : Template) : String :=
  String.join (template.map (Piece.fill content))

/-- The template ends here, or goes on with a character that cannot belong to a hole before it. -/
inductive Clear : Template → Prop
  | nil : Clear []
  | text {c : Char} {chars : List Char} {rest : Template} (h : Piece.closes c = false) :
      Clear (.text (String.ofList (c :: chars)) :: rest)

/-- Text does not look like a hole, and holes are set apart by text. -/
inductive Spaced : Template → Prop
  | nil : Spaced []
  | text {chars : List Char} {rest : Template} (h : '\x7b' ∉ chars) (hr : Spaced rest) :
      Spaced (.text (String.ofList chars) :: rest)
  | hole (index : Nat) {rest : Template} (h : Clear rest) (hr : Spaced rest) :
      Spaced (.hole index :: rest)

private theorem render_eq (template : Template) :
    template.render = template.renderWith Piece.holeText := by
  have h : Piece.render = Piece.fill Piece.holeText := by
    funext piece
    cases piece <;> rfl
  rw [render, renderWith, h]

/-- The pieces of a template are written one after another. -/
theorem renderWith_cons (content : Nat → String) (piece : Piece) (rest : Template) :
    (renderWith content (piece :: rest)).toList =
      (piece.fill content).toList ++ (renderWith content rest).toList := by
  simp only [renderWith, String.toList_join, List.map_cons, List.flatMap_cons]

private theorem Clear.head?_renderWith {template : Template} (h : template.Clear)
    (content : Nat → String) :
    ∀ c ∈ (template.renderWith content).toList.head?, Piece.closes c = false := by
  intro c hc
  cases h with
  | nil => cases hc
  | text h =>
    rw [renderWith_cons, Piece.fill, String.toList_ofList] at hc
    cases hc
    exact h

variable {template : Template}

/-- Filling one hole of a spaced template fills it wherever it stands, and whatever stands in the
holes is searched by itself. -/
theorem replaceAll_renderWith (h : template.Spaced) (index : Nat) (arg : String)
    (content : Nat → String) :
    Text.replaceAll (Piece.holeText index) arg (template.renderWith content) =
      template.renderWith fun i => Text.replaceAll (Piece.holeText index) arg (content i) := by
  rw [← String.toList_inj]
  simp only [Text.replaceAll, String.toList_ofList, Piece.holeText_toList]
  induction h with
  | nil => rfl
  | text h _ ih =>
    rw [renderWith_cons, renderWith_cons, Piece.fill, Piece.fill, String.toList_ofList,
      Text.replaceFrom_append_of_not_mem h, ih]
  -- What stands in the hole is arbitrary, so occurrences must be kept from running out of it.
  | @hole i rest h _ ih =>
    have hb : ∀ c ∈ (renderWith content rest).toList.head?,
        c ∉ index.repr.toList ++ ['\x7d'] := by
      intro c hc hin
      have hclear := h.head?_renderWith content c hc
      rw [Piece.closes_of_mem hin] at hclear
      cases hclear
    rw [renderWith_cons, renderWith_cons, Piece.fill, Piece.fill,
      Text.replaceFrom_append hb (Nat.zero_le _), ih, String.toList_ofList]

private theorem fillFrom_renderWith (h : template.Spaced) (index : Nat) (args : List String)
    (content : Nat → String) :
    fillFrom index (template.renderWith content) args =
      template.renderWith fun i => fillFrom index (content i) args := by
  induction args generalizing index content with
  | nil => rfl
  | cons arg rest ih => exact (congrArg (fillFrom (index + 1) · rest)
      (replaceAll_renderWith h index arg content)).trans (ih (index + 1) _)

/-- What comes to stand in hole `index`: its argument, with the later ones filled into it, or the
hole itself if there are not enough arguments. -/
def filling (args : List String) (index : Nat) : String :=
  match args.drop index with
  | [] => Piece.holeText index
  | arg :: later => fillFrom (index + 1) arg later

/-- Earlier arguments do not touch a hole. -/
theorem fillFrom_holeText_append (start : Nat) (before args : List String) (index : Nat)
    (h : start + before.length ≤ index) :
    fillFrom start (Piece.holeText index) (before ++ args) =
      fillFrom (start + before.length) (Piece.holeText index) args := by
  induction before generalizing start with
  | nil => rfl
  | cons arg rest ih =>
    rw [List.length_cons] at h
    rw [List.cons_append, fillFrom, Piece.replaceAll_of_ne (by omega), ih (start + 1) (by omega),
      List.length_cons, Nat.add_assoc, Nat.add_comm 1]

private theorem fillFrom_holeText (args : List String) (index : Nat) :
    fillFrom 0 (Piece.holeText index) args = filling args index := by
  have hsplit : args.take index ++ args.drop index = args := List.take_append_drop index args
  unfold filling
  cases hd : args.drop index with
  | nil =>
    have hlen : args.length ≤ index := List.drop_eq_nil_iff.mp hd
    have hkeep := fillFrom_holeText_append 0 args [] index (by omega)
    rwa [List.append_nil] at hkeep
  | cons arg later =>
    have hlen : (args.take index).length = index := by
      rw [List.length_take]
      have := congrArg List.length hd
      rw [List.length_drop, List.length_cons] at this
      omega
    have hkeep := fillFrom_holeText_append 0 (args.take index) (arg :: later) index
      (by omega)
    rw [← hd, hsplit, hd, hlen, Nat.zero_add, fillFrom, Piece.replaceAll_self] at hkeep
    exact hkeep

/-- A spaced template is filled hole by hole. -/
theorem fill_eq (h : template.Spaced) (args : List String) :
    template.fill args = template.renderWith (filling args) := by
  rw [fill, render_eq, fillFrom_renderWith h]
  exact congrArg (renderWith · template) (funext (fillFrom_holeText args))

/-- Nothing is filled into text without an opening brace. -/
theorem fillFrom_of_not_mem {text : String} (h : '\x7b' ∉ text.toList) (index : Nat)
    (args : List String) : fillFrom index text args = text := by
  induction args generalizing index with
  | nil => rfl
  | cons arg rest ih =>
    rw [fillFrom, Text.replaceAll, Piece.holeText_toList, Text.replaceFrom_of_not_mem h,
      String.ofList_toList, ih]

/-- An argument without an opening brace is filled in as it is. -/
theorem filling_of_not_mem {args : List String} {index : Nat} {arg : String}
    (h : args[index]? = some arg) (hb : '\x7b' ∉ arg.toList) : filling args index = arg := by
  have hhead : (args.drop index).head? = some arg := List.head?_drop.trans h
  unfold filling
  cases hd : args.drop index with
  | nil =>
    rw [hd] at hhead
    cases hhead
  | cons first later =>
    rw [hd] at hhead
    cases hhead
    exact fillFrom_of_not_mem hb (index + 1) later

private theorem not_mem_filling {args : List String} (h : ∀ arg ∈ args, '\x7b' ∉ arg.toList)
    {index : Nat} (hi : index < args.length) : '\x7b' ∉ (filling args index).toList := by
  have harg := h args[index] (List.getElem_mem hi)
  rw [filling_of_not_mem (List.getElem?_eq_getElem hi) harg]
  exact harg

private theorem infix_renderWith (content : Nat → String) {index : Nat}
    (h : index ∈ template.holes) :
    (content index).toList <:+: (template.renderWith content).toList := by
  induction template with
  | nil => cases h
  | cons piece rest ih =>
    rw [renderWith_cons]
    cases piece with
    | text s => exact (ih h).trans (List.suffix_append _ _).isInfix
    | hole i =>
      rcases List.mem_cons.mp h with rfl | h
      · exact (List.prefix_append _ _).isInfix
      · exact (ih h).trans (List.suffix_append _ _).isInfix

private theorem not_mem_renderWith (h : template.Spaced) {content : Nat → String}
    (hc : ∀ i ∈ template.holes, '\x7b' ∉ (content i).toList) :
    '\x7b' ∉ (template.renderWith content).toList := by
  induction h with
  | nil => exact List.not_mem_nil
  | text h _ ih =>
    rw [renderWith_cons, Piece.fill, String.toList_ofList, List.mem_append, not_or]
    exact ⟨h, ih hc⟩
  | hole i _ _ ih =>
    obtain ⟨hi, hrest⟩ := List.forall_mem_cons.mp hc
    rw [renderWith_cons, Piece.fill, List.mem_append, not_or]
    exact ⟨hi, ih hrest⟩

/-- What reads as a hole in a spaced template is one. -/
theorem holeText_infix_render (h : template.Spaced) (index : Nat) :
    (Piece.holeText index).toList <:+: template.render.toList ↔ index ∈ template.holes := by
  rw [render_eq]
  induction h with
  | nil => simp [renderWith, holes, Piece.holeText_toList]
  | text h _ ih =>
    rw [renderWith_cons, Piece.fill, String.toList_ofList]
    rw [Piece.holeText_toList] at ih ⊢
    rw [Text.infix_append_of_not_mem h, ih]
    rfl
  | hole i _ _ ih =>
    rw [renderWith_cons, Piece.fill, Piece.holeText_infix_append, ih]
    exact List.mem_cons.symm

end Template

/-! ### Arguments of diagnostics -/

/-- How many arguments the wording of a violation calls for. -/
def Violation.arity : Violation → Nat
  | refReturnStructThis => 0
  | escapeVariable | refReturnParameter | refReturnScopedParameter | refReturnOnlyParameter
  | refReturnParameterMember | refReturnScopedParameterMember | refReturnOnlyParameterMember
  | escapeStackAlloc | collectionExpressionEscape => 1
  | refReturnLocal | refReturnNonreturnableLocal | escapeCall | escapeCallMember | callArgMixing
  | nonEscapingArgument | refAssignNarrower | refAssignReturnOnly | refAssignValueNarrower => 2

namespace Code

/-- How many arguments the wording of a code calls for. -/
def arity : Code → Nat
  | violation kind _ => kind.arity
  | mayCaptureRefParameter => 2

/-- All wordings are spaced. -/
theorem spaced_template (code : Code) : code.template.Spaced := by
  cases code with
  | violation kind severity => cases kind <;> repeat' first | constructor | decide
  | mayCaptureRefParameter => repeat' first | constructor | decide

/-- The holes of a wording are numbered from zero on. -/
theorem holes_template (code : Code) :
    code.template.holes.eraseDups.length = code.arity ∧
      ∀ i, i ∈ code.template.holes ↔ i < code.arity := by
  have h : ∀ code ∈ all, code.template.holes.eraseDups.length = code.arity ∧
      (∀ i ∈ code.template.holes, i < code.arity) ∧
        ∀ i < code.arity, i ∈ code.template.holes := by decide
  obtain ⟨hcount, hlt, hmem⟩ := h code code.mem_all
  exact ⟨hcount, fun i => ⟨hlt i, hmem i⟩⟩

end Code

/-- Whatever is found comes with as many arguments as its wording calls for. -/
theorem Finding.Arises.length_args {S : Scope → Prop} {rules : Rules} {demand : Demand}
    {finding : Finding} (h : finding.Arises S rules demand) :
    finding.args.length = finding.kind.arity := by
  cases h with
  | localRef var span hm =>
    unfold Local.refFinding Violation.ofLocalRef
    generalize (var.kind.isReturnableByRef || var.passing.isByRef) = returnable
    cases demand.target.isReturnTarget <;> cases returnable <;> rfl
  | paramRef p span hm hn =>
    unfold Param.refFinding
    split
    · rfl
    · dsimp only
      generalize (p.passing.isByRef && decide (p.refScope rules = .currentMethod)) = refScoped
      generalize decide (p.refScope rules = .returnOnly) = returnOnly
      cases refScoped <;> cases returnOnly <;> rfl
  | stack hk e => rcases hk with rfl | rfl <;> rfl
  | result byRef e callee culprit => cases byRef <;> rfl
  | @refAssign referent hs left right => cases referent <;> rfl
  | value | mixing | leak | refAssignValue => rfl

private theorem Method.length_args_captureWarning {m : Method} {rules : Rules} {d : Diagnostic}
    (h : d ∈ m.captureWarnings rules) : d.args.length = d.code.arity := by
  unfold Method.captureWarnings at h
  split at h
  · obtain ⟨p, -, rfl⟩ := List.mem_map.mp h
    rfl
  · cases h

/-- Diagnostics have as many arguments as their wording calls for. -/
def Discipline.wording : Discipline where
  asks _ _ := True
  scopes _ := True
  lifetimes _ _ := True
  events
    | .reported d => d.args.length = d.code.arity
    | _ => True

private theorem Walker.upholds_wording (w : Walker) : w.Upholds .wording where
  closed _ _ _ := ⟨trivial, trivial, trivial⟩
  inner _ _ _ _ := ⟨trivial, trivial, trivial⟩
  allows _ _ _ _ _ := ⟨trivial, trivial⟩
  parts _ _ _ _ _ _ _ _ := trivial
  reported _ _ _ _ hf _ := hf.length_args
  warned _ hw := Method.length_args_captureWarning hw

/-- Every diagnostic of an analysis fits its message, also if the analysis fails. It has exactly as
many arguments as its wording has distinct holes. These are numbered from zero on, so every hole has
an argument and every argument a hole. The message is the wording with each argument, and the later
ones filled into it, in the holes of its number. No hole is left open, since an opening brace in the
message comes from an argument, and no argument is lost unless it has an opening brace itself. -/
theorem analyzeInto_diagnostics_fit (earlier : Diagnostics) (body : Body) (options : Options) :
    ∃ added, (analyzeInto earlier body options).2.toList = earlier.toList ++ added ∧
      ∀ d ∈ added,
        d.args.length = d.code.template.holes.eraseDups.length ∧
        (∀ i, (Piece.holeText i).toList <:+: d.code.template.render.toList ↔ i < d.args.length) ∧
        d.message = d.code.template.renderWith (Template.filling d.args) ∧
        ('\x7b' ∈ d.message.toList → ∃ arg ∈ d.args, '\x7b' ∈ arg.toList) ∧
        ∀ arg ∈ d.args, '\x7b' ∉ arg.toList → arg.toList <:+: d.message.toList := by
  let w : Walker := { setting := ⟨options.rules, body.method⟩, limit := options.maxDepth }
  refine ⟨_, rfl, fun d hd => ?_⟩
  have hlen : d.args.length = d.code.arity :=
    w.upholds_wording.diagnostics (fun _ _ => trivial) d hd
  have hspaced := d.code.spaced_template
  have hmessage : d.message = d.code.template.renderWith (Template.filling d.args) :=
    Template.fill_eq hspaced d.args
  obtain ⟨hcount, hholes⟩ := d.code.holes_template
  rw [← hlen] at hcount hholes
  refine ⟨hcount.symm, fun i => ?_, hmessage, ?_, ?_⟩
  · rw [Template.holeText_infix_render hspaced, hholes]
  · intro hbrace
    rw [hmessage] at hbrace
    refine Classical.byContradiction fun hno => Template.not_mem_renderWith hspaced ?_ hbrace
    intro i hi
    exact Template.not_mem_filling (fun arg ha hb => hno ⟨arg, ha, hb⟩) ((hholes i).mp hi)
  · intro arg ha hb
    obtain ⟨i, hi⟩ := List.mem_iff_getElem?.mp ha
    obtain ⟨hlt, -⟩ := List.getElem?_eq_some_iff.mp hi
    have hin := Template.infix_renderWith (Template.filling d.args) ((hholes i).mpr hlt)
    rwa [Template.filling_of_not_mem hi hb, ← hmessage] at hin

end RefLifetime
