import RefLifetime.Proofs.Invocations

/-!
# What patterns designate

`Pattern.designations` lists the variables that a pattern names, in the order in which matching
declares them, and with each the fields that lead to it from the matched value. Matching records
these variables and nothing else, and of the matched scope a variable keeps what its own type and
the types of those fields can carry (`Walker.pattern_designates`).
-/

namespace RefLifetime

/-- A variable that a pattern names. -/
structure Designation where
  var : Local
  /-- The fields that lead from the matched value to what is named, outermost first. -/
  through : List Field

/-- What is recorded for the variable in a given block, when a value of scope `input` is matched. -/
def Designation.lifetime (d : Designation) (block input : Scope) : Lifetime where
  ref := block
  value :=
    if d.var.modifier = .scopedValue then block
    else if d.var.ty.isRefLike && d.through.all (·.ty.isRefLike) then input
    else .callingMethod

/-- The variable that a pattern names for the value it is matched with, if it names one. -/
def Designation.ofOption (through : List Field) (var : Option Local) : List Designation :=
  var.toList.map (⟨·, through⟩)

mutual

/-- The variables that a pattern names. It is matched with what the fields `through` lead to, and
the parts of a value come before the value. -/
def Pattern.designations (through : List Field) : Pattern → List Designation
  | .discard | .type _ | .constant _ | .relational _ | .slice none => []
  | .declaration var => Designation.ofOption through var
  | .recursive properties var => Property.designations through properties ++
    Designation.ofOption through var
  | .list elements var => Pattern.listDesignations through elements ++
    Designation.ofOption through var
  | .slice (some rest) => rest.designations through
  | .not inner => inner.designations through
  | .and left right | .or left right => left.designations through ++ right.designations through
termination_by structural p => p

/-- The variables that all patterns of a list name; they are matched with the same value. -/
def Pattern.listDesignations (through : List Field) : List Pattern → List Designation
  | [] => []
  | p :: rest => p.designations through ++ Pattern.listDesignations through rest
termination_by structural ps => ps

/-- The variables that the patterns for some fields name. Each is matched with what its field leads
to. -/
def Property.designations (through : List Field) : List Property → List Designation
  | [] => []
  | ⟨member, p⟩ :: rest =>
    p.designations (through ++ [member]) ++ Property.designations through rest
termination_by structural ps => ps

end

mutual

/-- The values that a pattern compares with. -/
def Pattern.constants : Pattern → List Expr
  | .discard | .type _ | .declaration _ | .slice none => []
  | .constant value | .relational value => [value]
  | .recursive properties _ => Property.constants properties
  | .list elements _ => Pattern.listConstants elements
  | .slice (some rest) => rest.constants
  | .not inner => inner.constants
  | .and left right | .or left right => left.constants ++ right.constants
termination_by structural p => p

/-- The values that all patterns of a list compare with. -/
def Pattern.listConstants : List Pattern → List Expr
  | [] => []
  | p :: rest => p.constants ++ Pattern.listConstants rest
termination_by structural ps => ps

/-- The values that the patterns for some fields compare with. -/
def Property.constants : List Property → List Expr
  | [] => []
  | ⟨_, p⟩ :: rest => p.constants ++ Property.constants rest
termination_by structural ps => ps

end

/-! ### Records -/

/-- What is on record in `t` is on record in `s` or among `entries`, of which the last ones
count. -/
def State.Records (entries : List (Nat × Lifetime)) (s t : State) : Prop :=
  ∀ id, t.lifetimes.get? id = (entries.reverse.lookup id).or (s.lifetimes.get? id)

namespace State.Records

variable {entries more : List (Nat × Lifetime)} {s t u : State}

private theorem refl (s : State) : s.Records [] s := fun _ => rfl

private theorem of_recordsOnly (h : s.RecordsOnly [] t) : s.Records [] t := fun id => h id (by simp)

private theorem trans (h : s.Records entries t) (h' : t.Records more u) :
    s.Records (entries ++ more) u := by
  intro id
  rw [h' id, h id, List.reverse_append, List.lookup_append, Option.or_assoc]

private theorem declare (s : State) (var : Local) (lifetime : Lifetime) :
    s.Records [(var.id, lifetime)] (s.declare var lifetime) := by
  intro id
  by_cases hid : id = var.id
  · simp [State.declare, Lifetimes.get?_insert, hid]
  · have hb : (id == var.id) = false := by simpa using hid
    simp [State.declare, State.note, Lifetimes.get?_insert, hid, hb, List.lookup_cons]

private theorem lookup_reverse_eq_none {id : Nat} (hid : id ∉ entries.map (·.1)) :
    entries.reverse.lookup id = none := by
  rw [List.lookup_eq_none_iff]
  intro entry hmem
  have hne : id ≠ entry.1 := by
    rintro rfl
    exact hid (List.mem_map_of_mem (List.mem_reverse.mp hmem))
  simpa using hne

private theorem get?_of_not_mem (h : s.Records entries t) {id : Nat}
    (hid : id ∉ entries.map (·.1)) : t.lifetimes.get? id = s.lifetimes.get? id := by
  rw [h id, lookup_reverse_eq_none hid, Option.none_or]

private theorem get?_of_last {before after : List (Nat × Lifetime)} {id : Nat} {lifetime : Lifetime}
    (h : s.Records (before ++ (id, lifetime) :: after) t) (hlast : id ∉ after.map (·.1)) :
    t.lifetimes.get? id = some lifetime := by
  rw [h id]
  simp [List.lookup_append, lookup_reverse_eq_none hlast]

end State.Records

/-! ### Matching -/

/-- What is left of the scope `input` of a value in what the fields lead to. -/
def Scope.through (input : Scope) (fields : List Field) : Scope :=
  if fields.all (·.ty.isRefLike) then input else .callingMethod

private theorem Rule.carried_through (member : Field) (fields : List Field) (input : Scope) :
    Rule.carried member.ty (input.through fields) = input.through (fields ++ [member]) := by
  unfold Rule.carried Scope.through
  cases h : member.ty.isRefLike with
  | true => simp [h]
  | false => simp [h]

/-- The entry that matching makes for a variable. -/
def Designation.entry (block input : Scope) (d : Designation) : Nat × Lifetime :=
  (d.var.id, d.lifetime block input)

private theorem Designation.lifetime_eq (var : Local) (fields : List Field) (block input : Scope) :
    Designation.lifetime ⟨var, fields⟩ block input =
      ⟨block, if var.modifier = .scopedValue then block
        else Rule.carried var.ty (input.through fields)⟩ := by
  unfold Designation.lifetime Rule.carried Scope.through
  cases var.ty.isRefLike with
  | true => simp
  | false => simp

namespace Walker

variable (w : Walker) {levels : Nat} {mood : Mood} {path : Path} {demand : Demand} {input : Scope}

private theorem designation_records {fields : List Field} {var : Option Local} {s t : State}
    (h : w.carryOut levels mood path (Rule.designation var (input.through fields) demand) s =
      .ok () t) :
    s.Records ((Designation.ofOption fields var).map (·.entry demand.block input)) t := by
  cases var with
  | none =>
    cases h
    exact .refl _
  | some var =>
    cases h
    have hl := Designation.lifetime_eq var fields demand.block input
    change s.Records [(var.id, Designation.lifetime ⟨var, fields⟩ demand.block input)]
      (s.declare var _)
    rw [← hl]
    exact .declare s var _

/-- A value that a pattern compares with is evaluated and leaves what is on record as it was. -/
theorem constant_records {route : Path} {value : Expr} (hv : value.sites = []) {s t : State}
    (h : w.carryOut levels mood path
      (discard (Plan.evaluate route value demand.forValue)) s = .ok () t) :
    s.Records [] t := by
  change w.carryOut levels mood path
    (Plan.evaluate route value demand.forValue >>= fun _ => return ()) s = .ok () t at h
  rw [carryOut_evaluate, Ending.andThen_eq_ok] at h
  obtain ⟨scope, t, hvisit, h⟩ := h
  cases h
  have hr := w.visit_recordsOnly levels mood (path ++ route) (.expr value) demand.forValue s
  rw [hvisit] at hr
  change s.RecordsOnly value.sites t at hr
  rw [hv] at hr
  exact .of_recordsOnly hr

mutual

private theorem pattern_records {route : Path} {fields : List Field} (p : Pattern)
    (hp : ∀ e ∈ p.constants, e.sites = []) {s t : State}
    (h : w.carryOut levels mood path (Rule.pattern route (input.through fields) demand p) s =
      .ok () t) :
    s.Records ((p.designations fields).map (·.entry demand.block input)) t := by
  cases p with
  | discard =>
    cases h
    exact .refl _
  | constant value => exact w.constant_records (hp value (by simp [Pattern.constants])) h
  | type ty =>
    cases h
    exact .refl _
  | relational value => exact w.constant_records (hp value (by simp [Pattern.constants])) h
  | declaration var => exact w.designation_records h
  | recursive properties var =>
    obtain ⟨_, s₁, h₁, h₂⟩ := Plan.run_bind_eq_ok.mp h
    rw [Pattern.designations, List.map_append]
    exact (propertyPatterns_records properties hp h₁).trans (w.designation_records h₂)
  | list elements var =>
    obtain ⟨_, s₁, h₁, h₂⟩ := Plan.run_bind_eq_ok.mp h
    rw [Pattern.designations, List.map_append]
    exact (elementPatterns_records elements hp h₁).trans (w.designation_records h₂)
  | slice rest =>
    cases rest with
    | none =>
      cases h
      exact .refl _
    | some rest => exact pattern_records rest hp h
  | not inner => exact pattern_records inner hp h
  | and left right =>
    obtain ⟨hl, hr⟩ := List.forall_mem_append.mp hp
    obtain ⟨_, s₁, h₁, h₂⟩ := Plan.run_bind_eq_ok.mp h
    rw [Pattern.designations, List.map_append]
    exact (pattern_records left hl h₁).trans (pattern_records right hr h₂)
  | or left right =>
    obtain ⟨hl, hr⟩ := List.forall_mem_append.mp hp
    obtain ⟨_, s₁, h₁, h₂⟩ := Plan.run_bind_eq_ok.mp h
    rw [Pattern.designations, List.map_append]
    exact (pattern_records left hl h₁).trans (pattern_records right hr h₂)
termination_by structural p

private theorem elementPatterns_records {route : Path} {fields : List Field} (ps : List Pattern)
    (hp : ∀ e ∈ Pattern.listConstants ps, e.sites = []) {i : Nat} {s t : State}
    (h : w.carryOut levels mood path
      (Rule.elementPatterns route (input.through fields) demand i ps) s = .ok () t) :
    s.Records ((Pattern.listDesignations fields ps).map (·.entry demand.block input)) t := by
  cases ps with
  | nil =>
    cases h
    exact .refl _
  | cons p rest =>
    obtain ⟨hfirst, hrest⟩ := List.forall_mem_append.mp hp
    obtain ⟨_, s₁, h₁, h₂⟩ := Plan.run_bind_eq_ok.mp h
    rw [Pattern.listDesignations, List.map_append]
    exact (pattern_records p hfirst h₁).trans (elementPatterns_records rest hrest h₂)
termination_by structural ps

private theorem propertyPatterns_records {route : Path} {fields : List Field} (ps : List Property)
    (hp : ∀ e ∈ Property.constants ps, e.sites = []) {i : Nat} {s t : State}
    (h : w.carryOut levels mood path
      (Rule.propertyPatterns route (input.through fields) demand i ps) s = .ok () t) :
    s.Records ((Property.designations fields ps).map (·.entry demand.block input)) t := by
  cases ps with
  | nil =>
    cases h
    exact .refl _
  | cons property rest =>
    obtain ⟨member, p⟩ := property
    obtain ⟨hfirst, hrest⟩ := List.forall_mem_append.mp hp
    obtain ⟨_, s₁, h₁, h₂⟩ := Plan.run_bind_eq_ok.mp h
    rw [Property.designations, List.map_append]
    -- Below the field the scope is cut down once more.
    rw [Rule.carried_through] at h₁
    exact (pattern_records p hfirst h₁).trans (propertyPatterns_records rest hrest h₂)
termination_by structural ps

end

/-- Matching a value of scope `input` changes what is on record for the variables that the pattern
names and for no others. The last variable of an identifier has its own location in the block. Its
value is confined to the block if it is declared so. Otherwise it lives as long as the matched value
if it and every field on the way to it are ref-like, and may be carried anywhere if not. -/
theorem pattern_designates (levels : Nat) (mood : Mood) (path route : Path) (p : Pattern)
    (hp : ∀ e ∈ p.constants, e.sites = []) (input : Scope) (demand : Demand) {s t : State}
    (h : w.carryOut levels mood path (Rule.pattern route input demand p) s = .ok () t) :
    (∀ id, id ∉ (p.designations []).map (·.var.id) →
      t.lifetimes.get? id = s.lifetimes.get? id) ∧
    ∀ before d after, p.designations [] = before ++ d :: after →
      d.var.id ∉ after.map (·.var.id) →
        t.lifetimes.get? d.var.id = some (d.lifetime demand.block input) := by
  have hr : s.Records ((p.designations []).map (·.entry demand.block input)) t :=
    w.pattern_records p hp h
  have hids (ds : List Designation) :
      (ds.map (·.entry demand.block input)).map (·.1) = ds.map (·.var.id) := by
    rw [List.map_map]
    rfl
  constructor
  · intro id hid
    apply hr.get?_of_not_mem
    rwa [hids]
  · intro before d after hsplit hlast
    rw [hsplit, List.map_append, List.map_cons] at hr
    apply hr.get?_of_last
    rwa [hids]

/-- A ref struct of scope `block 3` is matched. Of its two fields only one is ref-like, the constant
is passed over, and the variable that is named twice has the record that was made last. -/
theorem pattern_designates_fields :
    let span : Ty := .span .int
    let holder : Ty := .refStruct "S"
    let items : Field := { name := "items", ty := span, container := holder }
    let owner : Field := { name := "owner", ty := .object, container := holder }
    let a : Local := { id := 0, name := "a", ty := span, span := default }
    let b : Local := { id := 1, name := "b", ty := span, span := default }
    let c : Local := { id := 2, name := "c", ty := span, modifier := .scopedValue, span := default }
    let p : Pattern := .and
      (.recursive [⟨items, .list [.constant ⟨.literal, .int, default⟩, .slice (some
          (.declaration (some a)))] (some b)⟩, ⟨owner, .not (.declaration (some b))⟩] (some c))
      (.or .discard (.declaration none))
    let w : Walker := ⟨⟨.updated, { name := "f", returnTy := .void, span := default }⟩, 8, true⟩
    let demand : Demand := ⟨.block 4, .value, .block 4⟩
    ∃ t, w.carryOut 8 {} [] (Rule.pattern [.pattern] (.block 3) demand p) {} = .ok () t ∧
      t.lifetimes.get? 0 = some ⟨.block 4, .block 3⟩ ∧
      t.lifetimes.get? 1 = some ⟨.block 4, .callingMethod⟩ ∧
      t.lifetimes.get? 2 = some ⟨.block 4, .block 4⟩ ∧ t.lifetimes.get? 3 = none := by
  intro span holder items owner a b c p w demand
  have hp : ∀ e ∈ p.constants, e.sites = [] := by
    intro e he
    cases List.mem_singleton.mp he
    rfl
  have h : w.carryOut 8 {} [] (Rule.pattern [.pattern] (.block 3) demand p) {} =
      .ok () (Ending.state (w.carryOut 8 {} [] (Rule.pattern [.pattern] (.block 3) demand p) {})) :=
    rfl
  obtain ⟨hothers, hnamed⟩ := w.pattern_designates 8 {} [] [.pattern] p hp (.block 3) demand h
  refine ⟨_, h, ?_, ?_, ?_, hothers 3 (by decide)⟩
  · exact hnamed [] ⟨a, [items]⟩ [⟨b, [items]⟩, ⟨b, [owner]⟩, ⟨c, []⟩] rfl (by decide)
  · exact hnamed [⟨a, [items]⟩, ⟨b, [items]⟩] ⟨b, [owner]⟩ [⟨c, []⟩] rfl (by decide)
  · exact hnamed [⟨a, [items]⟩, ⟨b, [items]⟩, ⟨b, [owner]⟩] ⟨c, []⟩ [] rfl (by decide)

end Walker

end RefLifetime
