import RefLifetime.Proofs.Wording

/-!
# Filling in arguments in turn and at once

`Template.substitute` puts every argument into its holes at once and leaves it as it is. Messages
are made by filling in one argument after another instead, so an argument that reads as a later hole
is filled itself. Holes are set apart by characters that no hole has, and filling adds to these
characters and never takes one away. So the two texts agree exactly if they agree in every hole
(`Template.fill_eq_substitute_iff`).
-/

namespace RefLifetime

/-! ### Replacing -/

namespace Text

variable {first : Char} {tail replacement : List Char}

/-- A character that does not begin an occurrence is kept. -/
theorem replaceFrom_cons {c : Char} {rest : List Char} (h : ¬ first :: tail <+: c :: rest) :
    replaceFrom (first :: tail) replacement 0 (c :: rest) =
      c :: replaceFrom (first :: tail) replacement 0 rest := by
  have hp : ¬ (first :: tail).isPrefixOf (c :: rest) = true := by
    rw [List.isPrefixOf_iff_prefix]
    exact h
  rw [replaceFrom, if_neg hp]

/-- Texts are built up from occurrences and from characters that begin none. -/
theorem occurrence_induction {motive : List Char → Prop} (pattern : List Char)
    (hne : pattern ≠ []) (nil : motive [])
    (occurrence : ∀ text, motive text → motive (pattern ++ text))
    (cons : ∀ c rest, ¬ pattern <+: c :: rest → motive rest → motive (c :: rest))
    (text : List Char) : motive text := by
  induction hn : text.length using Nat.strongRecOn generalizing text with
  | _ n ih =>
    cases text with
    | nil => exact nil
    | cons c rest =>
      by_cases hp : pattern <+: c :: rest
      · obtain ⟨later, hlater⟩ := hp
        have hpos : 0 < pattern.length := List.length_pos_iff.mpr hne
        have hlen : pattern.length + later.length = n := by
          rw [← hn, ← hlater, List.length_append]
        rw [← hlater]
        exact occurrence later (ih later.length (by omega) later rfl)
      · rw [List.length_cons] at hn
        exact cons c rest hp (ih rest.length (by omega) rest rfl)

private theorem replaceFrom_of_not_infix {text : List Char} (h : ¬ first :: tail <:+: text) :
    replaceFrom (first :: tail) replacement 0 text = text := by
  induction text with
  | nil => rfl
  | cons c rest ih =>
    rw [List.infix_cons_iff, not_or] at h
    rw [replaceFrom_cons h.1, ih h.2]

/-- Replacing takes no character away that is not one of the pattern. -/
theorem count_le_count_replaceFrom {c : Char} (hc : c ∉ first :: tail) (text : List Char) :
    text.count c ≤ (replaceFrom (first :: tail) replacement 0 text).count c := by
  induction text using occurrence_induction (first :: tail) (by simp) with
  | nil => exact Nat.zero_le _
  | occurrence text ih =>
    rw [replaceFrom_occurrence, List.count_append, List.count_append, List.count_eq_zero.mpr hc]
    omega
  | cons d rest hp ih =>
    rw [replaceFrom_cons hp, List.count_cons, List.count_cons]
    omega

/-- Texts grow if the pattern is replaced by something longer, and shrink if it is replaced by
something shorter. -/
theorem length_replaceFrom (first : Char) (tail replacement text : List Char) :
    (replacement.length ≤ (first :: tail).length →
      (replaceFrom (first :: tail) replacement 0 text).length ≤ text.length) ∧
    ((first :: tail).length ≤ replacement.length →
      text.length ≤ (replaceFrom (first :: tail) replacement 0 text).length) := by
  induction text using occurrence_induction (first :: tail) (by simp) with
  | nil => exact ⟨fun _ => Nat.le_refl _, fun _ => Nat.le_refl _⟩
  | occurrence text ih =>
    rw [replaceFrom_occurrence, List.length_append, List.length_append]
    omega
  | cons c rest hp ih =>
    simp only [replaceFrom_cons hp, List.length_cons] at ih ⊢
    omega

/-- Replacing changes nothing only if there is nothing to replace or the pattern is replaced by
itself. -/
theorem replaceFrom_eq_self_iff {text : List Char} :
    replaceFrom (first :: tail) replacement 0 text = text ↔
      ¬ first :: tail <:+: text ∨ replacement = first :: tail := by
  constructor
  · intro heq
    by_cases hin : first :: tail <:+: text
    · right
      induction text using occurrence_induction (first :: tail) (by simp) with
      | nil => exact absurd (List.infix_nil.mp hin) (List.cons_ne_nil _ _)
      | occurrence text ih =>
        rw [replaceFrom_occurrence] at heq
        have hlength := congrArg List.length heq
        have hrest := length_replaceFrom first tail replacement text
        rw [List.length_append, List.length_append] at hlength
        exact List.append_inj_left heq (by omega)
      | cons c rest hp ih =>
        rw [replaceFrom_cons hp] at heq
        exact ih (List.cons.inj heq).2 ((List.infix_cons_iff.mp hin).resolve_left hp)
    · exact .inl hin
  · rintro (hnot | rfl)
    · exact replaceFrom_of_not_infix hnot
    · induction text using occurrence_induction (first :: tail) (by simp) with
      | nil => rfl
      | occurrence text ih => rw [replaceFrom_occurrence, ih]
      | cons c rest hp ih => rw [replaceFrom_cons hp, ih]

/-- A text is cut in the same way by a character that comes up equally often before the cut. -/
theorem eq_of_append_cons {c : Char} {a a' b b' : List Char} (hcount : a.count c = a'.count c)
    (h : a ++ c :: b = a' ++ c :: b') : a = a' ∧ b = b' := by
  induction a generalizing a' with
  | nil =>
    cases a' with
    | nil => exact ⟨rfl, (List.cons.inj h).2⟩
    | cons d rest =>
      obtain ⟨rfl, -⟩ := List.cons.inj h
      simp at hcount
  | cons d rest ih =>
    cases a' with
    | nil =>
      obtain ⟨rfl, -⟩ := List.cons.inj h
      simp at hcount
    | cons d' rest' =>
      obtain ⟨rfl, htail⟩ := List.cons.inj h
      rw [List.count_cons, List.count_cons, Nat.add_right_cancel_iff] at hcount
      obtain ⟨rfl, hb⟩ := ih hcount htail
      exact ⟨rfl, hb⟩

end Text

/-! ### Characters that set holes apart -/

namespace Piece

/-- The character is not one of any hole. -/
def separates (c : Char) : Bool := !closes c && c != '\x7b'

private theorem not_mem_holeText {c : Char} (h : separates c = true) (index : Nat) :
    c ∉ (holeText index).toList := by
  simp only [separates, Bool.and_eq_true, Bool.not_eq_true', bne_iff_ne] at h
  rw [holeText_toList, List.mem_cons, not_or]
  refine ⟨h.2, fun hmem => ?_⟩
  rw [closes_of_mem hmem] at h
  cases h.1

end Piece

namespace Template

variable {template : Template} {content content' : Nat → String}

/-- Filling takes no character away that is not one of a hole. -/
theorem count_le_count_fillFrom {c : Char} (hc : Piece.separates c = true) (index : Nat)
    (text : String) (args : List String) :
    text.toList.count c ≤ (fillFrom index text args).toList.count c := by
  induction args generalizing index text with
  | nil => exact Nat.le_refl _
  | cons arg rest ih =>
    have hmem := Piece.not_mem_holeText hc index
    rw [Piece.holeText_toList] at hmem
    have hstep : text.toList.count c ≤
        (Text.replaceAll (Piece.holeText index) arg text).toList.count c := by
      rw [Text.replaceAll, String.toList_ofList, Piece.holeText_toList]
      exact Text.count_le_count_replaceFrom hmem text.toList
    exact Nat.le_trans hstep (ih (index + 1) _)

private theorem Clear.exists_head {piece : Piece} {rest : Template} (h : Clear (piece :: rest)) :
    ∃ c chars, piece = .text (String.ofList (c :: chars)) ∧ Piece.closes c = false := by
  cases h with
  | text h => exact ⟨_, _, rfl, h⟩

/-- What follows a hole, if anything, begins with a character that is not one of a hole. -/
theorem Spaced.exists_separator (h : template.Spaced) (hclear : template.Clear) :
    template = [] ∨ ∃ c, Piece.separates c = true ∧
      ∀ content, ∃ chars, (template.renderWith content).toList = c :: chars := by
  cases h with
  | nil => exact .inl rfl
  | @text chars rest hbrace hrest =>
    obtain ⟨c, more, hpiece, hc⟩ := hclear.exists_head
    have hchars : chars = c :: more := by
      rw [← String.toList_ofList (l := chars), Piece.text.inj hpiece, String.toList_ofList]
    subst hchars
    refine .inr ⟨c, ?_, fun content => ⟨more ++ (renderWith content rest).toList, ?_⟩⟩
    · have hne : c ≠ '\x7b' := fun heq => hbrace (heq ▸ List.mem_cons_self)
      simp [Piece.separates, hc, hne]
    · rw [renderWith_cons, Piece.fill, String.toList_ofList]
      rfl
  | hole index hr hrest =>
    obtain ⟨c, more, hpiece, -⟩ := hclear.exists_head
    cases hpiece

/-- If a character comes up in no hole more often than before, and in all the text as often as
before, then it comes up in every hole as often as before. -/
theorem count_eq_of_renderWith {c : Char}
    (hle : ∀ i ∈ template.holes, (content i).toList.count c ≤ (content' i).toList.count c) :
    (template.renderWith content).toList.count c ≤
        (template.renderWith content').toList.count c ∧
      ((template.renderWith content).toList.count c =
          (template.renderWith content').toList.count c →
        ∀ i ∈ template.holes, (content i).toList.count c = (content' i).toList.count c) := by
  induction template with
  | nil => exact ⟨Nat.le_refl _, fun _ i hi => by cases hi⟩
  | cons piece rest ih =>
    rw [renderWith_cons, renderWith_cons, List.count_append, List.count_append]
    cases piece with
    | text s =>
      obtain ⟨hrest, hholes⟩ := ih hle
      refine ⟨Nat.add_le_add_left hrest _, fun heq => hholes ?_⟩
      exact Nat.add_left_cancel heq
    | hole i =>
      obtain ⟨hi, hothers⟩ := List.forall_mem_cons.mp hle
      obtain ⟨hrest, hholes⟩ := ih hothers
      refine ⟨Nat.add_le_add hi hrest, fun heq => List.forall_mem_cons.mpr ⟨?_, hholes ?_⟩⟩
      · simp only [Piece.fill] at heq
        omega
      · simp only [Piece.fill] at heq
        omega

private theorem renderWith_congr (h : ∀ i ∈ template.holes, content i = content' i) :
    template.renderWith content = template.renderWith content' := by
  rw [← String.toList_inj]
  induction template with
  | nil => rfl
  | cons piece rest ih =>
    rw [renderWith_cons, renderWith_cons]
    cases piece with
    | text s => rw [Piece.fill, Piece.fill, ih h]
    | hole i =>
      obtain ⟨hi, hothers⟩ := List.forall_mem_cons.mp h
      rw [Piece.fill, Piece.fill, hi, ih hothers]

/-- A spaced text determines what stands in its holes, up to characters that only holes have. -/
theorem eq_of_renderWith_eq (h : template.Spaced)
    (hcount : ∀ c, Piece.separates c = true → ∀ i ∈ template.holes,
      (content i).toList.count c = (content' i).toList.count c)
    (heq : template.renderWith content = template.renderWith content') :
    ∀ i ∈ template.holes, content i = content' i := by
  rw [← String.toList_inj] at heq
  induction h with
  | nil => exact fun i hi => by cases hi
  | text _ _ ih =>
    rw [renderWith_cons, renderWith_cons, Piece.fill, Piece.fill] at heq
    exact ih hcount (List.append_cancel_left heq)
  | @hole i rest hclear hrest ih =>
    rw [renderWith_cons, renderWith_cons, Piece.fill, Piece.fill] at heq
    have hothers : ∀ c, Piece.separates c = true → ∀ i ∈ holes rest,
        (content i).toList.count c = (content' i).toList.count c :=
      fun c hc => (List.forall_mem_cons.mp (hcount c hc)).2
    -- The hole ends where the template does, or at the separator that follows it.
    obtain ⟨hhole, htail⟩ : (content i).toList = (content' i).toList ∧
        (renderWith content rest).toList = (renderWith content' rest).toList := by
      rcases hrest.exists_separator hclear with rfl | ⟨c, hc, hseparated⟩
      · exact ⟨by simpa [renderWith] using heq, rfl⟩
      · obtain ⟨chars, hchars⟩ := hseparated content
        obtain ⟨chars', hchars'⟩ := hseparated content'
        rw [hchars, hchars'] at heq
        obtain ⟨hhole, htail⟩ := Text.eq_of_append_cons
          (List.forall_mem_cons.mp (hcount c hc)).1 heq
        exact ⟨hhole, by rw [hchars, hchars', htail]⟩
    exact List.forall_mem_cons.mpr ⟨String.toList_inj.mp hhole, ih hothers htail⟩

/-! ### Substitution -/

/-- What hole `index` calls for: its argument, or the hole itself if there are not enough. -/
def given (args : List String) (index : Nat) : String := args[index]?.getD (Piece.holeText index)

/-- The template with every argument put into its holes at once. -/
def substitute (template : Template) (args : List String) : String :=
  template.renderWith (given args)

private theorem filling_of_getElem? {args : List String} {index : Nat} {arg : String}
    (h : args[index]? = some arg) :
    filling args index = fillFrom (index + 1) arg (args.drop (index + 1)) := by
  obtain ⟨hlt, rfl⟩ := List.getElem?_eq_some_iff.mp h
  rw [filling, List.drop_eq_getElem_cons hlt]

private theorem filling_eq_given_iff (args : List String) (index : Nat) :
    filling args index = given args index ↔ ∀ arg, args[index]? = some arg →
      fillFrom (index + 1) arg (args.drop (index + 1)) = arg := by
  unfold given
  cases h : args[index]? with
  | none =>
    have hdrop : args.drop index = [] := List.drop_eq_nil_iff.mpr (List.getElem?_eq_none_iff.mp h)
    simp [filling, hdrop]
  | some arg => simp [filling_of_getElem? h]

private theorem count_given_le {c : Char} (hc : Piece.separates c = true) (args : List String)
    (index : Nat) : (given args index).toList.count c ≤ (filling args index).toList.count c := by
  unfold given
  cases h : args[index]? with
  | none =>
    rw [Option.getD_none, List.count_eq_zero.mpr (Piece.not_mem_holeText hc index)]
    exact Nat.zero_le _
  | some arg =>
    rw [Option.getD_some, filling_of_getElem? h]
    exact count_le_count_fillFrom hc _ _ _

/-- Filling in turn and at once agree exactly if they agree in every hole. -/
theorem fill_eq_substitute_iff (h : template.Spaced) (args : List String) :
    template.fill args = template.substitute args ↔
      ∀ i ∈ template.holes, filling args i = given args i := by
  rw [fill_eq h, substitute]
  constructor
  · intro heq i hi
    refine (eq_of_renderWith_eq h (fun c hc => ?_) heq.symm i hi).symm
    exact (count_eq_of_renderWith fun i _ => count_given_le hc args i).2
      (congrArg (·.toList.count c) heq.symm)
  · exact renderWith_congr

/-- A text in which no hole can be read from `index` on is not changed by filling these. -/
theorem fillFrom_of_not_infix {text : String} {args : List String} {index : Nat}
    (h : ∀ j, index ≤ j → j < index + args.length →
      ¬ (Piece.holeText j).toList <:+: text.toList) : fillFrom index text args = text := by
  induction args generalizing index with
  | nil => rfl
  | cons arg rest ih =>
    have hfirst := h index (Nat.le_refl _) (by rw [List.length_cons]; omega)
    have hstep : Text.replaceAll (Piece.holeText index) arg text = text := by
      rw [Piece.holeText_toList] at hfirst
      rw [Text.replaceAll, Piece.holeText_toList, Text.replaceFrom_of_not_infix hfirst,
        String.ofList_toList]
    rw [fillFrom, hstep]
    apply ih
    intro j hle hlt
    exact h j (by omega) (by rw [List.length_cons]; omega)

/-- The last of two arguments fills the first one unless it cannot be told from its own hole. -/
theorem fillFrom_singleton_eq_iff (index : Nat) (text arg : String) :
    fillFrom index text [arg] = text ↔
      ¬ (Piece.holeText index).toList <:+: text.toList ∨ arg = Piece.holeText index := by
  change Text.replaceAll (Piece.holeText index) arg text = text ↔ _
  rw [← String.toList_inj, ← String.toList_inj, Text.replaceAll, String.toList_ofList,
    Piece.holeText_toList]
  exact Text.replaceFrom_eq_self_iff

end Template

/-- A message is made by filling in its arguments in turn: each hole holds its argument with the
later ones filled into it. That is the wording with each argument in its holes, and nothing else
changed, exactly if no argument of the wording is changed by filling the later ones into it. It is
so if no argument reads as a later hole anywhere. With two arguments it is so exactly if the first
does not read as the hole of the second anywhere, or the second is this hole itself. -/
theorem Diagnostic.message_fills_in_turn (d : Diagnostic) :
    d.message = d.code.template.renderWith (Template.filling d.args) ∧
    (d.message = d.code.template.substitute d.args ↔
      ∀ i ∈ d.code.template.holes, ∀ arg, d.args[i]? = some arg →
        Template.fillFrom (i + 1) arg (d.args.drop (i + 1)) = arg) ∧
    ((∀ i ∈ d.code.template.holes, ∀ arg, d.args[i]? = some arg → ∀ j, i < j → j < d.args.length →
        ¬ (Piece.holeText j).toList <:+: arg.toList) →
      d.message = d.code.template.substitute d.args) ∧
    ∀ first second, d.args = [first, second] → 0 ∈ d.code.template.holes →
      (d.message = d.code.template.substitute d.args ↔
        ¬ (Piece.holeText 1).toList <:+: first.toList ∨ second = Piece.holeText 1) := by
  have hspaced := d.code.spaced_template
  have hiff : d.message = d.code.template.substitute d.args ↔
      ∀ i ∈ d.code.template.holes, ∀ arg, d.args[i]? = some arg →
        Template.fillFrom (i + 1) arg (d.args.drop (i + 1)) = arg := by
    simp only [Diagnostic.message, Template.fill_eq_substitute_iff hspaced,
      Template.filling_eq_given_iff]
  refine ⟨Template.fill_eq hspaced d.args, hiff, fun hnone => hiff.mpr ?_, ?_⟩
  · intro i hi arg harg
    apply Template.fillFrom_of_not_infix
    intro j hle hlt
    rw [List.length_drop] at hlt
    exact hnone i hi arg harg j hle (by omega)
  · intro first second hargs hzero
    rw [hiff, ← Template.fillFrom_singleton_eq_iff 1 first second]
    constructor
    · intro h
      simpa [hargs] using h 0 hzero first (by rw [hargs]; rfl)
    · intro h i hi arg harg
      rw [hargs] at harg ⊢
      cases i with
      | zero =>
        cases harg
        exact h
      -- Nothing comes after the second argument.
      | succ i => simp [Template.fillFrom]

/-- A wording in which the second hole comes before the first, both of them twice. The arguments
have braces, but do not read as later holes. -/
theorem Diagnostic.message_fills_in_turn_braces :
    let d : Diagnostic :=
      ⟨.violation .refAssignNarrower .error, default, ["\x7b0\x7d", "\x7b1\x7d"]⟩
    0 ∈ d.code.template.holes ∧ ¬ (Piece.holeText 1).toList <:+: "\x7b0\x7d".toList ∧
      d.message = d.code.template.substitute d.args := by
  intro d
  have hzero : 0 ∈ d.code.template.holes := by decide
  have hfirst : ¬ (Piece.holeText 1).toList <:+: "\x7b0\x7d".toList := by decide
  obtain ⟨-, -, -, hpair⟩ := d.message_fills_in_turn
  exact ⟨hzero, hfirst, (hpair _ _ rfl hzero).mpr (.inl hfirst)⟩

/-- A local whose name reads as the hole of the line: both holes of the message hold the number of
the line, and the name is lost. -/
theorem Diagnostic.message_fills_argument :
    let d : Diagnostic := ⟨.violation .refReturnLocal .error, default, ["\x7b1\x7d", "3"]⟩
    d.message = d.code.template.renderWith (fun _ => "3") ∧
      Template.given d.args 0 = "\x7b1\x7d" ∧
      d.message ≠ d.code.template.substitute d.args := by
  intro d
  have hspaced := d.code.spaced_template
  have hfilling : ∀ i ∈ d.code.template.holes, Template.filling d.args i = "3" := by decide
  have hzero : 0 ∈ d.code.template.holes := by decide
  refine ⟨?_, rfl, fun heq => ?_⟩
  · rw [Diagnostic.message, Template.fill_eq hspaced]
    exact Template.renderWith_congr hfilling
  · have hhole := (Template.fill_eq_substitute_iff hspaced d.args).mp heq 0 hzero
    rw [hfilling 0 hzero] at hhole
    exact absurd hhole (by decide)

end RefLifetime
