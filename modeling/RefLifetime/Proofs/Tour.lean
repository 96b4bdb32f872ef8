import RefLifetime.Proofs.Stops

/-!
# Rules tour their stops

A plan tours a list of stops when it calls at each of them in order: every part is visited once in
the mood of the whole, and again only quietly, for its value, after that. A site either declares its
local or finds it declared. `Rule.node_tours` says that every rule tours the stops of its node,
whatever is demanded. Facts about the order, the number and the demands of visits follow from it.
-/

namespace RefLifetime

/-- A part that was visited, what was demanded of it and what it answered. -/
structure Answer where
  part : Part
  demand : Demand
  scope : Scope

/-- Asks for something in a block, with no requirement beyond it. -/
def Demand.within (mode : Mode) (block : Scope) : Demand := ⟨block, mode, block⟩

/-- The rule may demand this of the part, given the demand on the whole and the answers so far. -/
def Part.Asks (part : Part) (whole : Demand) (seen : List Answer) (demand : Demand) : Prop :=
  demand.block = part.block whole.block ∧
    match part.asking with
    | .freely => demand.target = demand.block
    | .once asked => demand = asked whole
    | .into holder =>
      demand.mode = .value ∧
        ∃ x ∈ seen, x.part.route = holder ∧ (∃ e, x.part.node = .expr e) ∧
          x.demand = .within .value whole.block ∧ demand.target = x.scope

/-- A part may be asked for its value. -/
theorem Part.asks_value {route : Path} {node : Node} {nested : Bool} {whole demand : Demand}
    {seen : List Answer}
    (hb : demand.block = if nested then whole.block.enterBlock else whole.block) :
    Asks ⟨route, node, nested, .freely⟩ whole seen demand.forValue :=
  ⟨hb, rfl⟩

/-- A part may be asked for its location. -/
theorem Part.asks_ref {route : Path} {node : Node} {nested : Bool} {whole demand : Demand}
    {seen : List Answer}
    (hb : demand.block = if nested then whole.block.enterBlock else whole.block) :
    Asks ⟨route, node, nested, .freely⟩ whole seen demand.forRef :=
  ⟨hb, rfl⟩

/-- A part that is asked for once, as the demand on the whole has it. -/
theorem Part.asks_once {route : Path} {node : Node} {nested : Bool} {asked : Demand → Demand}
    {whole : Demand} {seen : List Answer}
    (hb : (asked whole).block = if nested then whole.block.enterBlock else whole.block) :
    Asks ⟨route, node, nested, .once asked⟩ whole seen (asked whole) :=
  ⟨hb, rfl⟩

/-- The mood in which a part is visited for the first time: it reports, and an expression stays in
the region of the whole. -/
def Part.Opens (part : Part) (inner : Mood) : Prop :=
  inner.quiet = false ∧ ((∃ e, part.node = .expr e) → inner.region = .checked)

/-- The plan calls at the stops in order, and its result satisfies `Q`. It fails by itself, or
declares a local without looking it up first, only where `hazard` holds. -/
inductive Plan.Tours {α : Type} (whole : Demand) (hazard : Prop) (Q : α → Prop) :
    List Answer → List Stop → Plan α → Prop
  | done {seen : List Answer} {a : α} (h : Q a) : Tours whole hazard Q seen [] (.done a)
  | fail {seen : List Answer} {todo : List Stop} {cause : Failure} (hz : hazard) :
      Tours whole hazard Q seen todo (.fail cause)
  | first {seen : List Answer} {todo : List Stop} {part : Part} {demand : Demand} {inner : Mood}
      {next : Scope → Plan α} (hq : part.Opens inner) (ha : part.Asks whole seen demand)
      (hn : ∀ scope, Tours whole hazard Q (⟨part, demand, scope⟩ :: seen) todo (next scope)) :
      Tours whole hazard Q seen (.part part :: todo) (.visit part.route part.node demand inner next)
  | again {seen : List Answer} {todo : List Stop} {part : Part} {demand : Demand} {inner : Mood}
      {next : Scope → Plan α} (hq : inner = { quiet := true }) (hs : ∃ x ∈ seen, x.part = part)
      (hf : part.asking = .freely ∧ ∃ e, part.node = .expr e)
      (hd : demand = .within .value (part.block whole.block))
      (hn : ∀ scope, Tours whole hazard Q seen todo (next scope)) :
      Tours whole hazard Q seen todo (.visit part.route part.node demand inner next)
  | declare {seen : List Answer} {todo : List Stop} {var : Local} {lifetime : Lifetime}
      {next : Plan α} (hz : hazard) (hn : Tours whole hazard Q seen todo next) :
      Tours whole hazard Q seen (.site var.id :: todo) (.declare var lifetime next)
  | designate {seen : List Answer} {todo : List Stop} {var : Local} {lifetime : Lifetime}
      {next : Option Lifetime → Plan α}
      (h : next none = .declare var lifetime (next (some lifetime)))
      (hn : ∀ found, Tours whole hazard Q seen todo (next (some found))) :
      Tours whole hazard Q seen (.site var.id :: todo) (.lookup var.id next)
  | lookup {seen : List Answer} {todo : List Stop} {id : Nat} {cause : Failure}
      {next : Option Lifetime → Plan α} (hz : hazard) (h : next none = .fail cause)
      (hn : ∀ found, Tours whole hazard Q seen todo (next (some found))) :
      Tours whole hazard Q seen todo (.lookup id next)
  | report {seen : List Answer} {todo : List Stop} {finding : Finding} {next : Plan α}
      (hn : Tours whole hazard Q seen todo next) :
      Tours whole hazard Q seen todo (.report finding next)
  | hint {seen : List Answer} {todo : List Stop} {id : Nat} {next : Plan α}
      (hn : Tours whole hazard Q seen todo next) : Tours whole hazard Q seen todo (.hint id next)

/-- More answers allow the same demands. -/
theorem Part.Asks.mono {part : Part} {whole demand : Demand} {seen seen' : List Answer}
    (h : part.Asks whole seen demand) (hs : seen ⊆ seen') : part.Asks whole seen' demand := by
  refine ⟨h.1, ?_⟩
  have h₂ := h.2
  cases hk : part.asking with
  | freely => simpa only [hk] using h₂
  | once asked => simpa only [hk] using h₂
  | into holder =>
    simp only [hk] at h₂
    obtain ⟨hm, x, hx, hr⟩ := h₂
    exact ⟨hm, x, hs hx, hr⟩

namespace Plan.Tours

variable {α β : Type} {whole : Demand} {hazard : Prop} {Q : α → Prop} {R : β → Prop}
  {seen seen' : List Answer} {todo rest : List Stop}

/-- What may be asked after fewer answers may be asked after more. -/
theorem mono {p : Plan α} (h : Tours whole hazard Q seen todo p) (hs : seen ⊆ seen') :
    Tours whole hazard Q seen' todo p := by
  induction h generalizing seen' with
  | done h => exact .done h
  | fail hz => exact .fail hz
  | first hq ha _ ih =>
    exact .first hq (ha.mono hs) fun scope => ih scope (List.cons_subset_cons _ hs)
  | again hq hx hf hd _ ih =>
    obtain ⟨x, hx, hp⟩ := hx
    exact .again hq ⟨x, hs hx, hp⟩ hf hd fun scope => ih scope hs
  | declare hz _ ih => exact .declare hz (ih hs)
  | designate h _ ih => exact .designate h fun found => ih found hs
  | lookup hz h _ ih => exact .lookup hz h fun found => ih found hs
  | report _ ih => exact .report (ih hs)
  | hint _ ih => exact .hint (ih hs)

/-- A tour is continued by another one. -/
theorem bind {p : Plan α} {f : α → Plan β} (h : Tours whole hazard Q seen todo p)
    (hf : ∀ a, Q a → Tours whole hazard R seen rest (f a)) :
    Tours whole hazard R seen (todo ++ rest) (p >>= f) := by
  change Tours whole hazard R seen (todo ++ rest) (p.bind f)
  induction h with
  | done h => exact hf _ h
  | fail hz => exact .fail hz
  | first hq ha _ ih =>
    exact .first hq ha fun scope => ih scope fun a ha => (hf a ha).mono (List.subset_cons_self _ _)
  | again hq hx hp hd _ ih => exact .again hq hx hp hd fun scope => ih scope hf
  | declare hz _ ih => exact .declare hz (ih hf)
  | @designate seen todo var lifetime next h _ ih =>
    have h' : (next none).bind f = .declare var lifetime ((next (some lifetime)).bind f) := by
      rw [h]
      rfl
    exact .designate h' fun found => ih found hf
  | @lookup seen todo id cause next hz h _ ih =>
    have h' : (next none).bind f = .fail cause := by
      rw [h]
      rfl
    exact .lookup hz h' fun found => ih found hf
  | report _ ih => exact .report (ih hf)
  | hint _ ih => exact .hint (ih hf)

/-- A tour whose end comes without stops. -/
theorem bind_nil {p : Plan α} {f : α → Plan β} (h : Tours whole hazard Q seen todo p)
    (hf : ∀ a, Q a → Tours whole hazard R seen [] (f a)) :
    Tours whole hazard R seen todo (p >>= f) := by
  simpa using bind h hf

/-- A tour whose beginning comes without stops. -/
theorem nil_bind {p : Plan α} {f : α → Plan β} (h : Tours whole hazard Q seen [] p)
    (hf : ∀ a, Q a → Tours whole hazard R seen todo (f a)) :
    Tours whole hazard R seen todo (p >>= f) :=
  bind h hf

private theorem imp {p : Plan α} {Q' : α → Prop} (h : Tours whole hazard Q seen todo p)
    (hQ : ∀ a, Q a → Q' a) : Tours whole hazard Q' seen todo p := by
  induction h with
  | done h => exact .done (hQ _ h)
  | fail hz => exact .fail hz
  | first hq ha _ ih => exact .first hq ha ih
  | again hq hx hp hd _ ih => exact .again hq hx hp hd ih
  | declare hz _ ih => exact .declare hz ih
  | designate h _ ih => exact .designate h ih
  | lookup hz h _ ih => exact .lookup hz h ih
  | report _ ih => exact .report ih
  | hint _ ih => exact .hint ih

/-- The members of a list are toured one after another, and what `view` shows of each result is
known from the member. -/
theorem forEach_view {γ : Type} (view : β → γ) (image : α → γ) {f : Nat → α → Plan β}
    {g : Nat → α → List Stop}
    (h : ∀ i a, Tours whole hazard (fun b => view b = image a) seen (g i a) (f i a))
    (items : List α) (start : Nat) :
    Tours whole hazard (fun bs => bs.map view = items.map image) seen
      (Stop.forEach g items start) (Plan.forEach f items start) := by
  induction items generalizing start with
  | nil => exact .done rfl
  | cons item rest ih =>
    refine bind (h start item) fun b hb => bind_nil (ih (start + 1)) fun bs hbs => .done ?_
    rw [List.map_cons, List.map_cons, hb, hbs]

/-- The members of a list are toured one after another. -/
theorem forEach {f : Nat → α → Plan β} {g : Nat → α → List Stop}
    (h : ∀ i a, Tours whole hazard (fun _ => True) seen (g i a) (f i a)) (items : List α)
    (start : Nat) :
    Tours whole hazard (fun _ => True) seen (Stop.forEach g items start)
      (Plan.forEach f items start) :=
  (forEach_view (fun _ => ()) (fun _ => ()) (fun i a => (h i a).imp fun _ _ => rfl) items start).imp
    fun _ _ => trivial

/-- A part is asked for what its kind allows, and the tour goes on. -/
theorem evaluate {route : Path} {e : Expr} {nested : Bool} {asking : Asking} {demand : Demand}
    {f : Scope → Plan β} (ha : Part.Asks ⟨route, .expr e, nested, asking⟩ whole seen demand)
    (hf : ∀ scope, Tours whole hazard R (⟨⟨route, .expr e, nested, asking⟩, demand, scope⟩ :: seen)
      todo (f scope)) :
    Tours whole hazard R seen (.part ⟨route, .expr e, nested, asking⟩ :: todo)
      (Plan.evaluate route e demand >>= f) :=
  .first ⟨rfl, fun _ => rfl⟩ ha hf

/-- A part that was asked for before is asked for its value. -/
theorem evaluateQuietly {route : Path} {e : Expr} {nested : Bool} {demand : Demand}
    {f : Scope → Plan β} (hs : ∃ x ∈ seen, x.part = ⟨route, .expr e, nested, .freely⟩)
    (hd : demand = .within .value (Part.block ⟨route, .expr e, nested, .freely⟩ whole.block))
    (hf : ∀ scope, Tours whole hazard R seen todo (f scope)) :
    Tours whole hazard R seen todo (Plan.evaluateQuietly route e demand >>= f) :=
  .again rfl hs ⟨rfl, e, rfl⟩ hd hf

/-- A part that is asked for last. -/
theorem evaluate_last {route : Path} {e : Expr} {nested : Bool} {asking : Asking} {demand : Demand}
    (ha : Part.Asks ⟨route, .expr e, nested, asking⟩ whole seen demand) :
    Tours whole hazard (fun _ => True) seen [.part ⟨route, .expr e, nested, asking⟩]
      (Plan.evaluate route e demand) :=
  .first ⟨rfl, fun _ => rfl⟩ ha fun _ => .done trivial

private theorem discard {p : Plan α} (h : Tours whole hazard Q seen todo p) :
    Tours whole hazard (fun _ => True) seen todo (Functor.discard p) :=
  bind_nil h fun _ _ => .done trivial

/-- A report makes no stop. -/
theorem reportIf (violated : Bool) (finding : Finding) :
    Tours whole hazard (fun _ => True) seen [] (Plan.reportIf violated finding) := by
  unfold Plan.reportIf
  split
  · exact .report (.done trivial)
  · exact .done trivial

/-- To settle a demand makes no stop. -/
theorem settle (demand : Demand) (scope : Scope) (finding : Finding) :
    Tours whole hazard (fun _ => True) seen [] (Plan.settle demand scope finding) :=
  bind_nil (reportIf _ finding) fun _ _ => .done trivial

/-- The members of a list are asked for one after another. -/
theorem evaluateAll {step : Nat → Step} {nested : Bool} {asking : Asking} {demand : Demand}
    (ha : ∀ i e, Part.Asks ⟨[step i], .expr e, nested, asking⟩ whole seen demand) (es : List Expr) :
    Tours whole hazard (fun _ => True) seen
      (Stop.forEach (fun i e => [.part ⟨[step i], .expr e, nested, asking⟩]) es)
      (Plan.evaluateAll step es demand) :=
  forEach (fun i e => evaluate_last (ha i e)) es 0

/-- A part that may be absent is asked for where it is present. -/
theorem evaluate? {route : Path} {nested : Bool} {asking : Asking} {demand : Demand}
    (ha : ∀ e, Part.Asks ⟨route, .expr e, nested, asking⟩ whole seen demand) (e : Option Expr) :
    Tours whole hazard (fun _ => True) seen
      (Stop.ofOption (fun e => [.part ⟨route, .expr e, nested, asking⟩]) e)
      (Plan.evaluate? route e demand) := by
  cases e with
  | none => exact .done trivial
  | some e => exact (evaluate_last (ha e)).discard

/-- To perform a statement is one stop. -/
theorem perform {route : Path} {st : Stmt} {nested : Bool} {asking : Asking}
    {demand : Demand} (ha : Part.Asks ⟨route, .stmt st, nested, asking⟩ whole seen demand)
    (region : Region) :
    Tours whole hazard (fun _ => True) seen [.part ⟨route, .stmt st, nested, asking⟩]
      (Plan.perform route st demand region) :=
  .first ⟨rfl, by rintro ⟨e, h⟩; cases h⟩ ha fun _ => .done trivial

end Plan.Tours

/-! ### Expressions -/

namespace Rule

open Plan (Tours)

variable {whole : Demand} {hazard : Prop} {seen : List Answer}

/-- A designated variable is a site. -/
theorem designate_tours (hz : hazard) (var : Local) (demand : Demand) (value : Scope) :
    Tours whole hazard (fun _ => True) seen [.site var.id] (designate var demand value) :=
  .declare hz (.done trivial)

private theorem designation_tours (hz : hazard) (var : Option Local) (input : Scope)
    (demand : Demand) :
    Tours whole hazard (fun _ => True) seen (Stop.ofOption (fun v => [.site v.id]) var)
      (designation var input demand) := by
  cases var with
  | none => exact .done trivial
  | some v => exact designate_tours hz v demand _

mutual

/-- Matching tours the stops of the pattern. -/
theorem pattern_tours (hz : hazard) (nested : Bool) {demand : Demand}
    (hd : demand.block = if nested then whole.block.enterBlock else whole.block) (route : Path)
    (input : Scope) (p : Pattern) :
    Tours whole hazard (fun _ => True) seen (p.stops route nested)
      (pattern route input demand p) := by
  match p with
  | .discard | .type _ => exact .done trivial
  | .constant value | .relational value => exact (Tours.evaluate_last (Part.asks_value hd)).discard
  | .declaration var => exact designation_tours hz var input demand
  | .recursive properties var =>
    refine Tours.bind (propertyPatterns_tours hz nested hd route input 0 properties) ?_
    exact fun _ _ => designation_tours hz var input demand
  | .list elements var =>
    refine Tours.bind (elementPatterns_tours hz nested hd route input 0 elements) ?_
    exact fun _ _ => designation_tours hz var input demand
  | .slice none => exact .done trivial
  | .slice (some rest) => exact pattern_tours hz nested hd _ input rest
  | .not inner => exact pattern_tours hz nested hd _ input inner
  | .and left right | .or left right =>
    refine Tours.bind (pattern_tours hz nested hd _ input left) ?_
    exact fun _ _ => pattern_tours hz nested hd _ input right

private theorem elementPatterns_tours (hz : hazard) (nested : Bool) {demand : Demand}
    (hd : demand.block = if nested then whole.block.enterBlock else whole.block) (route : Path)
    (input : Scope) (i : Nat) (ps : List Pattern) :
    Tours whole hazard (fun _ => True) seen (Pattern.elementStops route nested i ps)
      (elementPatterns route input demand i ps) := by
  match ps with
  | [] => exact .done trivial
  | p :: rest =>
    refine Tours.bind (pattern_tours hz nested hd _ input p) ?_
    exact fun _ _ => elementPatterns_tours hz nested hd route input (i + 1) rest

private theorem propertyPatterns_tours (hz : hazard) (nested : Bool) {demand : Demand}
    (hd : demand.block = if nested then whole.block.enterBlock else whole.block) (route : Path)
    (input : Scope) (i : Nat) (ps : List Property) :
    Tours whole hazard (fun _ => True) seen (Pattern.propertyStops route nested i ps)
      (propertyPatterns route input demand i ps) := by
  match ps with
  | [] => exact .done trivial
  | ⟨member, p⟩ :: rest =>
    refine Tours.bind (pattern_tours hz nested hd _ (carried member.ty input) p) ?_
    exact fun _ _ => propertyPatterns_tours hz nested hd route input (i + 1) rest

end

private theorem localVar_tours (hz : hazard) (var : Local) (span : Span) (demand : Demand) :
    Tours whole hazard (fun _ => True) seen [] (localVar var span demand) := by
  refine .lookup hz rfl fun lifetime => ?_
  cases hm : demand.mode with
  | value => simpa only [hm] using Tours.settle demand lifetime.value _
  | ref => simpa only [hm] using Tours.settle demand lifetime.ref _

private theorem param_tours (rules : Rules) (p : Param) (span : Span) (demand : Demand) :
    Tours whole hazard (fun _ => True) seen [] (param rules p span demand) := by
  unfold param
  split <;> exact Tours.settle demand _ _

private theorem thisRef_tours (hz : hazard) (setting : Setting) (span : Span) (demand : Demand) :
    Tours whole hazard (fun _ => True) seen [] (thisRef setting span demand) := by
  unfold thisRef
  split
  · exact .fail hz
  · exact param_tours setting.rules _ span demand

/-- An argument that declares a variable is left to the call site; any other is asked for as it is
passed, and where that is by reference for its value, too. -/
theorem actual_tours (route : Path) (e : Expr) (p : Option Param) (passing : Passing) :
    Tours whole hazard (fun a => a.outVar = e.form.outVar?) seen (Stop.actual route e)
      (actual route e p passing whole) := by
  obtain ⟨form, ty, span⟩ := e
  have hv : form.outVar? = none → Tours whole hazard (fun a => a.outVar = none) seen
      [Stop.free route ⟨form, ty, span⟩] (actual route ⟨form, ty, span⟩ p passing whole) := by
    intro hf
    unfold actual
    split
    · next var he =>
      have he : form = Form.outVar var := he
      rw [he] at hf
      cases hf
    · split
      · refine Tours.evaluate (Part.asks_ref rfl) fun ref => ?_
        exact Tours.evaluateQuietly ⟨_, List.mem_cons_self, rfl⟩ rfl fun value => .done rfl
      · exact Tours.evaluate (Part.asks_value rfl) fun value => .done rfl
  cases form with
  | outVar var => exact .done rfl
  | _ => exact hv rfl

/-- Arguments are called at in order, and which variables they declare is known. -/
theorem actuals_tours (callee : Method) (args : List Argument) :
    Tours whole hazard (fun given => given.map (·.outVar) = args.map (·.value.form.outVar?)) seen
      (Stop.forEach (fun i arg => Stop.actual [.argument i] arg.value) args)
      (actuals callee args whole) :=
  Tours.forEach_view _ _ (fun i arg => actual_tours [.argument i] arg.value _ _) args 0

/-- The receiver of a call is one stop, if there is one, and which variable it declares is known. -/
theorem receiverActual_tours (callee : Method) (receiver : Option Expr) :
    Tours whole hazard
      (fun given => given.map (·.outVar) = receiver.toList.map (·.form.outVar?)) seen
      (Stop.ofOption (Stop.actual [.receiver]) receiver)
      (receiverActual callee receiver whole) := by
  cases receiver with
  | none => exact .done rfl
  | some e =>
    refine Tours.bind_nil (actual_tours [.receiver] e _ _) fun a ha => .done ?_
    rw [List.map_singleton, ha]
    rfl

/-- A variable that is not declared yet is declared; one that is stays as it is. -/
theorem declareOutVars_tours (demand : Demand) (scope : Scope) (given : List Actual) :
    Tours whole hazard (fun _ => True) seen (Stop.outVars (given.map (·.outVar)))
      (declareOutVars demand scope given) := by
  induction given with
  | nil => exact .done trivial
  | cons a rest ih =>
    cases ho : a.outVar with
    | none =>
      simpa only [declareOutVars, Stop.outVars, List.map_cons, List.filterMap_cons, ho,
        Option.map_none] using ih
    | some var =>
      simp only [declareOutVars, Stop.outVars, List.map_cons, List.filterMap_cons, ho,
        Option.map_some]
      exact Tours.designate rfl fun _ => ih

private theorem reportAll_tours (findings : List Finding) :
    Tours whole hazard (fun _ => True) seen [] (reportAll findings) := by
  induction findings with
  | nil => exact .done trivial
  | cons finding rest ih => exact .report ih

private theorem hintAll_tours (ids : List Nat) :
    Tours whole hazard (fun _ => True) seen [] (hintAll ids) := by
  induction ids with
  | nil => exact .done trivial
  | cons id rest ih => exact .hint ih

/-- The checks at a call stop only at the sites of the variables that it declares. -/
theorem callSite_tours (rules : Rules) (callee : Method) (demand : Demand) (given : List Actual) :
    Tours whole hazard (fun _ => True) seen (Stop.outVars (given.map (·.outVar)))
      (callSite rules callee demand given) := by
  refine Tours.bind_nil (declareOutVars_tours demand _ given) fun _ _ => ?_
  refine Tours.nil_bind (reportAll_tours _) fun _ _ => ?_
  refine Tours.nil_bind (reportAll_tours _) fun _ _ => ?_
  exact Tours.nil_bind (hintAll_tours _) fun _ _ => .done trivial

private theorem call_tours (rules : Rules) (e : Expr) (receiver : Option Expr) (callee : Method)
    (args : List Argument) :
    Tours whole hazard (fun _ => True) seen (Stop.invocation receiver args)
      (call rules e receiver callee args whole) := by
  refine Tours.bind (receiverActual_tours callee receiver) fun own ho => ?_
  refine Tours.bind (actuals_tours callee args) fun given hg => ?_
  have he : (own ++ given).map (·.outVar) =
      (receiver.toList ++ args.map (·.value)).map (·.form.outVar?) := by
    rw [List.map_append, List.map_append, ho, hg, List.map_map]
    rfl
  rw [← he]
  refine Tours.bind_nil (callSite_tours rules callee whole _) fun bound _ => ?_
  dsimp only
  generalize (if whole.isRef then callee.returnsByRef else e.ty.isRefLike) = carries
  cases carries with
  | true => exact Tours.settle whole _ _
  | false => exact .done trivial

/-- The initial value of a field is one stop, asked for freely. -/
theorem fieldInit_tours (rules : Rules) (i : Nat) (init : FieldInit) :
    Tours whole hazard (fun _ => True) seen [Stop.free [.init i] init.value]
      (fieldInit rules i init whole) := by
  refine Tours.evaluate ?_ fun scope => .done trivial
  split
  · exact Part.asks_ref rfl
  · exact Part.asks_value rfl

private theorem objectCreation_tours (rules : Rules) (e : Expr) (constructor : Method)
    (args : List Argument) (inits : List FieldInit) :
    Tours whole hazard (fun _ => True) seen
      (Stop.invocation none args ++
        Stop.forEach (fun i init => [.free [.init i] init.value]) inits)
      (objectCreation rules e constructor args inits whole) := by
  rw [Stop.invocation, Stop.ofOption, List.nil_append, List.append_assoc]
  refine Tours.bind (actuals_tours constructor args) fun given hg => ?_
  have he : given.map (·.outVar) =
      ((none : Option Expr).toList ++ args.map (·.value)).map (·.form.outVar?) := by
    rw [hg, Option.toList_none, List.nil_append, List.map_map]
    rfl
  rw [← he]
  refine Tours.bind (callSite_tours rules constructor whole given) fun bound _ => ?_
  refine Tours.bind_nil (Tours.forEach (fun i init => fieldInit_tours rules i init) inits 0) ?_
  intro initialized _
  dsimp only
  split
  · exact Tours.settle whole _ _
  · exact .done trivial

/-- The scope of a field is that of its holder, or unlimited. -/
theorem field_eq (rules : Rules) (holder : Expr) {member : Field} (hs : member.isStatic = false)
    (demand : Demand) :
    field rules (some holder) member demand = (do
      let scope ← Plan.evaluate [.receiver] holder (member.holderDemand rules holder demand)
      let limited := (member.limit? rules holder demand.mode).isSome
      return if limited then scope else .callingMethod) := by
  obtain ⟨block, mode, target⟩ := demand
  cases mode with
  | ref =>
    simp only [field, hs, Field.holderDemand, Field.limit?]
    by_cases hr : (member.passing.isByRef && rules.isUpdated) = true
    · simp only [hr, if_true]
      rfl
    · by_cases hh : holder.ty.isReference = true
      · simp only [hr, hh, if_true]
        rfl
      · simp only [hr, hh]
        rfl
  | value =>
    simp only [field, hs, Field.holderDemand, Field.limit?]
    by_cases hc : (member.container.isRefLike && member.ty.isRefLike) = true
    · simp only [hc, if_true]
      rfl
    · simp only [hc]
      rfl

private theorem holderDemand_block (member : Field) (rules : Rules) (holder : Expr)
    (demand : Demand) : (member.holderDemand rules holder demand).block = demand.block := by
  unfold Field.holderDemand
  split <;> rfl

/-- The holder of a field is asked for once, as the field requires. -/
theorem field_tours (rules : Rules) (holder : Expr) {member : Field}
    (hs : member.isStatic = false) :
    Tours whole hazard (fun _ => True) seen
      [.once [.receiver] holder (member.holderDemand rules holder)]
      (field rules (some holder) member whole) := by
  rw [field_eq rules holder hs]
  exact Tours.evaluate (Part.asks_once (holderDemand_block member rules holder whole))
    fun scope => .done trivial

/-- An operand stands in the block of the whole. -/
theorem forOperand_block (demand : Demand) : demand.forOperand.block = demand.block := by
  unfold Demand.forOperand
  split <;> rfl

private theorem stackValue_tours (kind : Violation) (e : Expr) :
    Tours whole hazard (fun _ => True) seen [] (stackValue kind e whole) :=
  Tours.nil_bind (Tours.reportIf _ _) fun _ _ => .done trivial

private theorem joined_tours (left right : Expr) :
    Tours whole hazard (fun _ => True) seen
      [.once [.left] left .forOperand, .once [.right] right .forOperand]
      (joined left right whole) :=
  Tours.evaluate (Part.asks_once (forOperand_block whole)) fun _ =>
    Tours.evaluate (Part.asks_once (forOperand_block whole)) fun _ => .done trivial

private theorem readBoth_tours (left right : Expr) :
    Tours whole hazard (fun _ => True) seen [.free [.left] left, .free [.right] right]
      (readBoth left right whole) :=
  Tours.evaluate (Part.asks_value rfl) fun _ =>
    Tours.evaluate (Part.asks_value rfl) fun _ => .done trivial

/-- A choice asks both branches for the same. -/
theorem conditional_tours (condition whenTrue whenFalse : Expr) (byRef : Bool) :
    Tours whole hazard (fun _ => True) seen
      [.free [.condition] condition, .once [.left] whenTrue (.forBranch byRef),
        .once [.right] whenFalse (.forBranch byRef)]
      (conditional condition whenTrue whenFalse byRef whole) := by
  refine Tours.evaluate (Part.asks_value rfl) fun _ => ?_
  have ha (route : Path) (e : Expr) (answers : List Answer) :
      Part.Asks ⟨route, .expr e, false, .once (.forBranch byRef)⟩ whole answers
        (whole.forBranch byRef) := by
    refine Part.asks_once ?_
    unfold Demand.forBranch
    split <;> rfl
  unfold Demand.forBranch at ha ⊢
  by_cases hb : (whole.isRef && !byRef) = true
  · simp only [hb, if_true] at ha ⊢
    exact Tours.evaluate (ha _ _ _) fun _ => Tours.evaluate (ha _ _ _) fun _ => .done trivial
  · simp only [hb] at ha ⊢
    exact Tours.evaluate (ha _ _ _) fun _ => Tours.evaluate (ha _ _ _) fun _ => .done trivial

private theorem arm_tours (hz : hazard) (input : Scope) (i : Nat) (a : Arm) :
    Tours whole hazard (fun _ => True) seen (Stop.arm i a) (arm input whole i a) := by
  refine Tours.bind (pattern_tours hz false rfl _ input a.pattern) fun _ _ => ?_
  refine Tours.bind (Tours.evaluate? (fun _ => Part.asks_value rfl) a.guard) fun _ _ => ?_
  exact Tours.evaluate_last (Part.asks_once (forOperand_block whole))

/-- The location on the left is asked for, then the one on the right, and then their values. -/
theorem refAssignment_tours (left right : Expr) :
    Tours whole hazard (fun _ => True) seen [.free [.left] left, .free [.right] right]
      (refAssignment left right whole) := by
  refine Tours.evaluate (Part.asks_ref rfl) fun target => ?_
  refine Tours.evaluate (Part.asks_ref rfl) fun referent => ?_
  obtain ⟨answers, hs⟩ : ∃ answers, answers =
      ⟨⟨[.right], .expr right, false, .freely⟩, whole.forRef, referent⟩ ::
        ⟨⟨[.left], .expr left, false, .freely⟩, whole.forRef, target⟩ :: seen := ⟨_, rfl⟩
  have hl : ∃ x ∈ answers, x.part = ⟨[.left], .expr left, false, .freely⟩ :=
    ⟨_, hs ▸ List.mem_cons_of_mem _ List.mem_cons_self, rfl⟩
  have hr : ∃ x ∈ answers, x.part = ⟨[.right], .expr right, false, .freely⟩ :=
    ⟨_, hs ▸ List.mem_cons_self, rfl⟩
  have hlast {p : Plan Scope}
      (hp : p = pure referent ∨ p = Plan.evaluateQuietly [.right] right whole.forValue) :
      Tours whole hazard (fun _ => True) answers [] p := by
    rcases hp with rfl | rfl
    · exact .done trivial
    · exact Tours.again rfl hr ⟨rfl, right, rfl⟩ rfl fun _ => .done trivial
  change Tours whole hazard _ (_ :: _ :: seen) [] _
  rw [← hs]
  dsimp only
  split
  · refine .report (hlast ?_)
    cases whole.mode with
    | value => exact .inr rfl
    | ref => exact .inl rfl
  · split
    · refine Tours.evaluateQuietly hl rfl fun held => ?_
      refine Tours.evaluateQuietly hr rfl fun value => ?_
      refine Tours.nil_bind (Tours.reportIf _ _) fun _ _ => hlast ?_
      cases whole.mode with
      | value => exact .inr rfl
      | ref => exact .inl rfl
    · refine hlast ?_
      cases whole.mode with
      | value => exact .inr rfl
      | ref => exact .inl rfl

/-- The right side is asked for a value that the left side can hold. -/
theorem valueAssignment_tours (left right : Expr) :
    Tours whole hazard (fun _ => True) seen
      [.free [.left] left, .part ⟨[.right], .expr right, false, .into [.left]⟩]
      (valueAssignment left right whole) := by
  refine Tours.evaluate (Part.asks_value rfl) fun target => ?_
  refine Tours.evaluate ?_ fun value => .done trivial
  exact ⟨rfl, rfl, _, List.mem_cons_self, rfl, ⟨left, rfl⟩, rfl, rfl⟩

end Rule

/-- The rule fails by itself, or declares a variable again, for expressions of this form only. -/
def Form.isDelicate : Form → Bool
  | .localVar _ | .thisRef | .outVar _ | .isPattern _ _ | .switch _ _ => true
  | _ => false

/-- The rule for an expression tours the stops of the expression. -/
theorem Rule.expr_tours (setting : Setting) (e : Expr) {hazard : Prop}
    (hz : e.form.isDelicate = true → hazard) (demand : Demand) :
    (Rule.expr setting e demand).Tours demand hazard (fun _ => True) [] (e.stops setting) := by
  obtain ⟨form, ty, span⟩ := e
  cases form with
  | literal | defaultValue | typeToken | typeSize | discard => exact .done trivial
  | localVar var => exact localVar_tours (hz rfl) var span demand
  | param p => exact param_tours setting.rules p span demand
  | thisRef => exact thisRef_tours (hz rfl) setting span demand
  | field receiver member =>
    cases receiver with
    | none => exact .done trivial
    | some holder =>
      cases hs : member.isStatic with
      | true =>
        simp only [Rule.expr, Rule.field, Expr.stops, hs]
        exact .done trivial
      | false =>
        simp only [Rule.expr, Expr.stops, hs]
        exact field_tours setting.rules holder hs
  | arrayElement array indices =>
    refine .evaluate (Part.asks_value rfl) fun _ => ?_
    refine .bind_nil (Plan.Tours.evaluateAll ?_ indices).discard fun _ _ => .done trivial
    exact fun _ _ => Part.asks_value rfl
  | call receiver callee args => exact call_tours setting.rules _ receiver callee args
  | objectCreation constructor args inits =>
    exact objectCreation_tours setting.rules _ constructor args inits
  | arrayCreation id sizes elements =>
    refine .bind (Plan.Tours.evaluateAll (fun _ _ => Part.asks_value rfl) sizes).discard ?_
    intro _ _
    refine .bind_nil (Plan.Tours.evaluateAll (fun _ _ => Part.asks_once rfl) elements).discard ?_
    exact fun _ _ => .done trivial
  | delegateCreation receiver method =>
    refine .bind_nil (Plan.Tours.evaluate? (fun _ => Part.asks_once rfl) receiver) ?_
    exact fun _ _ => .done trivial
  | stackAlloc count elements =>
    refine .evaluate (Part.asks_value rfl) fun _ => ?_
    refine .bind_nil (Plan.Tours.evaluateAll (fun _ _ => Part.asks_value rfl) elements).discard ?_
    exact fun _ _ => stackValue_tours _ _
  | collection elements =>
    simp only [Rule.expr, Expr.stops]
    split
    · refine .bind_nil (Plan.Tours.evaluateAll (fun _ _ => Part.asks_value rfl) elements).discard ?_
      exact fun _ _ => stackValue_tours _ _
    · refine .bind_nil (Plan.Tours.evaluateAll (fun _ _ => Part.asks_once rfl) elements).discard ?_
      exact fun _ _ => .done trivial
  | conditional condition whenTrue whenFalse byRef =>
    exact conditional_tours condition whenTrue whenFalse byRef
  | coalesce left right => exact joined_tours left right
  | tuple elements =>
    refine .bind_nil (Plan.Tours.evaluateAll ?_ elements) fun _ _ => .done trivial
    exact fun _ _ => Part.asks_once (forOperand_block demand)
  | conversion operand kind =>
    simp only [Rule.expr, Expr.stops]
    split
    · exact .evaluate_last (Part.asks_once rfl)
    · exact .evaluate (Part.asks_value rfl) fun _ => .done trivial
  | unary operand =>
    simp only [Rule.expr, Expr.stops]
    split
    · exact .evaluate (Part.asks_once (forOperand_block demand)) fun _ => .done trivial
    · exact .evaluate (Part.asks_value rfl) fun _ => .done trivial
  | binary left right =>
    simp only [Rule.expr, Expr.stops]
    split
    · exact joined_tours left right
    · exact readBoth_tours left right
  | assignment left right byRef =>
    simp only [Rule.expr, Expr.stops]
    split
    · exact refAssignment_tours left right
    · exact valueAssignment_tours left right
  | compoundAssignment left right => exact readBoth_tours left right
  | outVar var => exact .designate rfl fun _ => localVar_tours (hz rfl) var span demand
  | isPattern operand p =>
    refine .evaluate (Part.asks_value rfl) fun input => ?_
    exact .bind_nil (pattern_tours (hz rfl) false rfl _ input p) fun _ _ => .done trivial
  | switch governing arms =>
    refine .evaluate (Part.asks_value rfl) fun input => ?_
    exact .bind_nil (.forEach (arm_tours (hz rfl) input) arms 0) fun _ _ => .done trivial

/-! ### Statements -/

namespace Rule

open Plan (Tours)

variable {whole : Demand} {hazard : Prop} {seen : List Answer}

private theorem stmts_tours (route : Path) (body : List Stmt) (region : Region) :
    Tours whole hazard (fun _ => True) seen (Stop.block route body)
      (stmts route body whole.enterBlock region) :=
  (Tours.forEach (fun _ _ => Tours.perform (Part.asks_once rfl) region) body 0).discard

/-- The initial value is asked for as the local is declared, and the local is a site. -/
theorem declaration_tours (hz : hazard) (route : Path) (nested : Bool) {demand : Demand}
    (hd : demand.block = if nested then whole.block.enterBlock else whole.block)
    (d : Declaration) :
    Tours whole hazard (fun _ => True) seen (Stop.declaration route nested d)
      (declaration route d demand) := by
  obtain ⟨var, init⟩ := d
  cases init with
  | none => exact .declare hz (.done trivial)
  | some e =>
    simp only [Stop.declaration, Stop.ofOption, declaration]
    split
    · refine Tours.evaluate (Part.asks_ref hd) fun ref => ?_
      refine Tours.evaluateQuietly ⟨_, List.mem_cons_self, rfl⟩ (congrArg (Demand.within _) hd) ?_
      exact fun value => .declare hz (.done trivial)
    · exact Tours.evaluate (Part.asks_value hd) fun value => .declare hz (.done trivial)

private theorem switchSection_tours (hz : hazard) (input : Scope) (i : Nat) (s : Section) :
    Tours whole hazard (fun _ => True) seen (Stop.switchSection i s)
      (switchSection input whole.enterBlock i s) := by
  have hl : Tours whole hazard (fun _ => True) seen
      (Stop.forEach (fun j p => p.stops [.arm i, .label j] true) s.labels)
      (Plan.forEach (fun j p => pattern [.arm i, .label j] input whole.enterBlock p) s.labels) :=
    Tours.forEach (fun j p => pattern_tours hz true rfl _ input p) s.labels 0
  refine Tours.bind hl.discard fun _ _ => ?_
  refine Tours.bind (Tours.evaluate? (fun _ => Part.asks_value rfl) s.guard) fun _ _ => ?_
  exact stmts_tours [.arm i] s.body .checked

private theorem handler_tours (hz : hazard) (i : Nat) (c : Catch) :
    Tours whole hazard (fun _ => True) seen (Stop.handler i c) (handler whole.enterBlock i c) := by
  have hrest : Tours whole hazard (fun _ => True) seen
      (Stop.ofOption (fun e => [.free [.arm i, .guard] e true]) c.filter ++
        Stop.block [.arm i] c.body)
      (do
        Plan.evaluate? [.arm i, .guard] c.filter whole.enterBlock.forValue
        stmts [.arm i] c.body whole.enterBlock) := by
    refine Tours.bind (Tours.evaluate? (fun _ => Part.asks_value rfl) c.filter) fun _ _ => ?_
    exact stmts_tours [.arm i] c.body .checked
  obtain ⟨var, filter, body⟩ := c
  cases var with
  | none => exact hrest
  | some var => exact .declare hz hrest

end Rule

/-- The rule for a statement tours the stops of the statement. -/
theorem Rule.stmt_tours (setting : Setting) (s : Stmt) {hazard : Prop} (hz : hazard)
    (demand : Demand) :
    (Rule.stmt setting s demand).Tours demand hazard (fun _ => True) [] (s.stops setting) := by
  cases s with
  | block body => exact stmts_tours [] body .checked
  | declare d => exact declaration_tours hz [.init 0] false rfl d
  | eval value | yieldReturn value => exact (Plan.Tours.evaluate_last (Part.asks_value rfl)).discard
  | ret value => exact .evaluate? (fun _ => Part.asks_once rfl) value
  | ite condition whenTrue whenFalse =>
    refine .evaluate (Part.asks_value rfl) fun _ => ?_
    refine .bind (.perform (Part.asks_once rfl) .checked) fun _ _ => ?_
    cases whenFalse with
    | none => exact .done trivial
    | some other => exact .perform (Part.asks_once rfl) .checked
  | whileLoop condition body | doLoop condition body =>
    refine .evaluate (Part.asks_value rfl) fun _ => ?_
    exact .perform (Part.asks_once rfl) .checked
  | forLoop inits condition increments body =>
    refine .bind (Plan.Tours.forEach ?_ inits 0).discard fun _ _ => ?_
    · exact fun _ _ => .perform (Part.asks_once rfl) .checked
    refine .bind (.evaluate? (fun _ => Part.asks_value rfl) condition) fun _ _ => ?_
    refine .bind (Plan.Tours.evaluateAll ?_ increments).discard fun _ _ => ?_
    · exact fun _ _ => Part.asks_value rfl
    exact .perform (Part.asks_once rfl) .checked
  | foreach var collection body =>
    refine .evaluate (Part.asks_value rfl) fun scope => ?_
    exact .declare hz (.perform (Part.asks_once rfl) .checked)
  | «using» resources body =>
    refine .bind (Plan.Tours.forEach ?_ resources 0).discard fun _ _ => ?_
    · exact fun i d => declaration_tours hz [.init i] true rfl d
    exact .perform (Part.asks_once rfl) .checked
  | switch governing sections =>
    refine .evaluate (Part.asks_value rfl) fun input => ?_
    exact (Plan.Tours.forEach (switchSection_tours hz input) sections 0).discard
  | tryCatch body catches cleanup =>
    refine .bind (stmts_tours [.body] body .checked) fun _ _ => ?_
    refine .bind (Plan.Tours.forEach (handler_tours hz) catches 0).discard fun _ _ => ?_
    cases cleanup with
    | none => exact .done trivial
    | some final => exact stmts_tours [.cleanup] final .checked
  | throw value => exact .evaluate? (fun _ => Part.asks_once rfl) value
  | «break» | «continue» | empty => exact .done trivial
  | uncheckedBlock body => exact stmts_tours [] body .unchecked

/-- Every rule tours the stops of its node. -/
theorem Rule.node_tours (setting : Setting) (n : Node) (demand : Demand) :
    (Rule.node setting n demand).Tours demand True (fun _ => True) [] (n.stops setting) := by
  cases n with
  | expr e => exact expr_tours setting e (fun _ => trivial) demand
  | stmt s => exact .bind_nil (stmt_tours setting s trivial demand) fun _ _ => .done trivial

/-- The walk of a method body tours its statements. -/
theorem Rule.body_tours (body : List Stmt) :
    (Rule.stmts [] body .methodBody).Tours .methodBody True (fun _ => True) [] (Stop.body body) :=
  (Plan.Tours.forEach (fun _ _ => .perform (Part.asks_once rfl) .checked) body 0).discard

/-! ### What depends on the block alone -/

namespace Rule

variable {demand demand' : Demand}

/-- To ask for a value, with no requirement beyond the block, depends on the block only. -/
theorem forValue_congr (h : demand.block = demand'.block) : demand.forValue = demand'.forValue := by
  simp only [Demand.forValue, Demand.requiring, h]

private theorem designate_congr (h : demand.block = demand'.block) (var : Local) (value : Scope) :
    designate var demand value = designate var demand' value := by
  simp only [designate, h]

private theorem designation_congr (h : demand.block = demand'.block) (var : Option Local)
    (input : Scope) : designation var input demand = designation var input demand' := by
  cases var with
  | none => rfl
  | some v => exact designate_congr h v _

mutual

/-- Matching depends on the block alone. -/
theorem pattern_congr (h : demand.block = demand'.block) (route : Path) (input : Scope) :
    (p : Pattern) → pattern route input demand p = pattern route input demand' p
  | .discard | .type _ | .slice none => rfl
  | .constant value | .relational value => by simp only [pattern, forValue_congr h]
  | .declaration var => designation_congr h var input
  | .recursive properties var => by
    simp only [pattern, propertyPatterns_congr h route input 0 properties,
      designation_congr h var input]
  | .list elements var => by
    simp only [pattern, elementPatterns_congr h route input 0 elements,
      designation_congr h var input]
  | .slice (some rest) => pattern_congr h _ input rest
  | .not inner => pattern_congr h _ input inner
  | .and left right | .or left right => by
    simp only [pattern, pattern_congr h _ input left, pattern_congr h _ input right]
termination_by structural p => p

private theorem elementPatterns_congr (h : demand.block = demand'.block) (route : Path)
    (input : Scope) (i : Nat) : (ps : List Pattern) →
      elementPatterns route input demand i ps = elementPatterns route input demand' i ps
  | [] => rfl
  | p :: rest => by
    simp only [elementPatterns, pattern_congr h _ input p,
      elementPatterns_congr h route input (i + 1) rest]
termination_by structural ps => ps

private theorem propertyPatterns_congr (h : demand.block = demand'.block) (route : Path)
    (input : Scope) (i : Nat) : (ps : List Property) →
      propertyPatterns route input demand i ps = propertyPatterns route input demand' i ps
  | [] => rfl
  | ⟨member, p⟩ :: rest => by
    simp only [propertyPatterns, pattern_congr h _ (carried member.ty input) p,
      propertyPatterns_congr h route input (i + 1) rest]
termination_by structural ps => ps

end

private theorem declareOutVars_congr (h : demand.block = demand'.block) (scope : Scope)
    (given : List Actual) :
    declareOutVars demand scope given = declareOutVars demand' scope given := by
  induction given with
  | nil => rfl
  | cons a rest ih => simp only [declareOutVars, designate_congr h, ih]

/-- The check of a call site depends on the block alone. -/
theorem callSite_congr (h : demand.block = demand'.block) (rules : Rules) (callee : Method)
    (given : List Actual) :
    callSite rules callee demand given = callSite rules callee demand' given := by
  simp only [callSite, h, declareOutVars_congr h]

end Rule

end RefLifetime
