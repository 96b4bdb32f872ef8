import RefLifetime.Proofs.Apart
import RefLifetime.Proofs.Tour

/-!
# Steady answers

Once the locals inside an expression are declared, looking at it again changes nothing.
`Node.Steady` evaluates a node against a table of lifetimes that already holds everything the node
declares; `Node.Settled` says that an expression has such an answer to every demand in its block,
and so has everything inside it.
-/

namespace RefLifetime

/-- Whatever is recorded in the first table is recorded in the second one. -/
def Lifetimes.Sub (table table' : Lifetimes) : Prop :=
  ∀ id lifetime, table.get? id = some lifetime → table'.get? id = some lifetime

/-- What is recorded in the first table is recorded in the last one. -/
theorem Lifetimes.Sub.trans {a b c : Lifetimes} (h : a.Sub b) (h' : b.Sub c) : a.Sub c :=
  fun id lifetime hl => h' id lifetime (h id lifetime hl)

/-- The plan ends in a result and only repeats what the table records: locals that are looked up are
declared, and declarations are the recorded ones. Parts answer as `answers` says. -/
def Plan.Steady {α : Type} (answers : Node → Demand → Scope → Prop) (table : Lifetimes) :
    Plan α → α → Prop
  | .done a, b => a = b
  | .fail _, _ => False
  | .visit _ node demand _ next, b =>
    ∃ scope, answers node demand scope ∧ (next scope).Steady answers table b
  | .lookup id next, b =>
    ∃ lifetime, table.get? id = some lifetime ∧ (next (some lifetime)).Steady answers table b
  | .declare var lifetime next, b =>
    table.get? var.id = some lifetime ∧ next.Steady answers table b
  | .report _ next, b | .hint _ next, b => next.Steady answers table b

/-- The node answers the demand with this scope, within a number of levels, and only repeats what
the table records. -/
def Node.Steady (setting : Setting) : Nat → Lifetimes → Node → Demand → Scope → Prop
  | 0, _, _, _, _ => False
  | levels + 1, table, node, demand, scope =>
    (Rule.node setting node demand).Steady (Node.Steady setting levels table) table scope

/-- An expression that stands in `block` has a steady answer to every demand there, and so has
everything inside it. -/
def Node.Settled (setting : Setting) : Nat → Lifetimes → Scope → Node → Prop
  | _, _, _, .stmt _ => True
  | 0, _, _, .expr _ => False
  | levels + 1, table, block, .expr e =>
    (∀ p, .part p ∈ e.stops setting → Node.Settled setting levels table (p.block block) p.node) ∧
      ∀ demand, demand.block = block →
        ∃ scope, Node.Steady setting (levels + 1) table (.expr e) demand scope

namespace Plan.Steady

variable {α β : Type} {answers answers' : Node → Demand → Scope → Prop} {table table' : Lifetimes}

private theorem mono
    (ha : ∀ node demand scope, answers node demand scope → answers' node demand scope)
    (ht : table.Sub table') {p : Plan α} {a : α} (h : p.Steady answers table a) :
    p.Steady answers' table' a := by
  induction p with
  | done b => exact h
  | fail cause => exact h
  | visit route node demand inner next ih =>
    obtain ⟨scope, hs, hn⟩ := h
    exact ⟨scope, ha node demand scope hs, ih scope hn⟩
  | lookup id next ih =>
    obtain ⟨lifetime, hl, hn⟩ := h
    exact ⟨lifetime, ht id lifetime hl, ih (some lifetime) hn⟩
  | declare var lifetime next ih => exact ⟨ht var.id lifetime h.1, ih h.2⟩
  | report finding next ih => exact ih h
  | hint id next ih => exact ih h

/-- A steady result is the only one. -/
theorem unique (ha : ∀ node demand scope scope', answers node demand scope →
      answers node demand scope' → scope = scope') {p : Plan α} {a b : α}
    (h : p.Steady answers table a) (h' : p.Steady answers table b) : a = b := by
  induction p with
  | done c => exact h.symm.trans h'
  | fail cause => exact h.elim
  | visit route node demand inner next ih =>
    obtain ⟨scope, hs, hn⟩ := h
    obtain ⟨scope', hs', hn'⟩ := h'
    obtain rfl := ha node demand scope scope' hs hs'
    exact ih scope hn hn'
  | lookup id next ih =>
    obtain ⟨lifetime, hl, hn⟩ := h
    obtain ⟨lifetime', hl', hn'⟩ := h'
    obtain rfl := Option.some.inj (hl.symm.trans hl')
    exact ih (some lifetime) hn hn'
  | declare var lifetime next ih => exact ih h.2 h'.2
  | report finding next ih => exact ih h h'
  | hint id next ih => exact ih h h'

/-- A plan and its continuation are steady one after the other. -/
theorem bind_iff {p : Plan α} {f : α → Plan β} {b : β} :
    (p >>= f).Steady answers table b ↔
      ∃ a, p.Steady answers table a ∧ (f a).Steady answers table b := by
  change (p.bind f).Steady answers table b ↔ _
  induction p with
  | done c =>
    constructor
    · exact fun h => ⟨c, rfl, h⟩
    · rintro ⟨a, rfl, h⟩
      exact h
  | fail cause =>
    constructor
    · exact fun h => h.elim
    · rintro ⟨a, h, -⟩
      exact h.elim
  | visit route node demand inner next ih =>
    constructor
    · rintro ⟨scope, hs, hn⟩
      obtain ⟨a, hp, hf⟩ := (ih scope).mp hn
      exact ⟨a, ⟨scope, hs, hp⟩, hf⟩
    · rintro ⟨a, ⟨scope, hs, hp⟩, hf⟩
      exact ⟨scope, hs, (ih scope).mpr ⟨a, hp, hf⟩⟩
  | lookup id next ih =>
    constructor
    · rintro ⟨lifetime, hl, hn⟩
      obtain ⟨a, hp, hf⟩ := (ih (some lifetime)).mp hn
      exact ⟨a, ⟨lifetime, hl, hp⟩, hf⟩
    · rintro ⟨a, ⟨lifetime, hl, hp⟩, hf⟩
      exact ⟨lifetime, hl, (ih (some lifetime)).mpr ⟨a, hp, hf⟩⟩
  | declare var lifetime next ih =>
    constructor
    · rintro ⟨hl, hn⟩
      obtain ⟨a, hp, hf⟩ := ih.mp hn
      exact ⟨a, ⟨hl, hp⟩, hf⟩
    · rintro ⟨a, ⟨hl, hp⟩, hf⟩
      exact ⟨hl, ih.mpr ⟨a, hp, hf⟩⟩
  | report finding next ih => exact ih
  | hint id next ih => exact ih

end Plan.Steady

namespace Node

variable {setting : Setting} {levels : Nat} {table table' : Lifetimes} {node : Node}

/-- Steady answers stay what they are when more is recorded. -/
theorem Steady.mono (ht : table.Sub table') {demand : Demand} {scope : Scope}
    (h : Steady setting levels table node demand scope) :
    Steady setting levels table' node demand scope := by
  induction levels generalizing node demand scope with
  | zero => exact h
  | succ levels ih => exact Plan.Steady.mono (fun _ _ _ => ih) ht h

/-- A steady answer is the only one. -/
theorem Steady.unique {demand : Demand} {scope scope' : Scope}
    (h : Steady setting levels table node demand scope)
    (h' : Steady setting levels table node demand scope') : scope = scope' := by
  induction levels generalizing node demand scope scope' with
  | zero => exact h.elim
  | succ levels ih =>
    have ha : ∀ node demand scope scope', Steady setting levels table node demand scope →
        Steady setting levels table node demand scope' → scope = scope' :=
      fun _ _ _ _ h h' => ih h h'
    exact Plan.Steady.unique ha h h'

/-- More records do not unsettle anything. -/
theorem Settled.mono (ht : table.Sub table') {block : Scope}
    (h : Settled setting levels table block node) : Settled setting levels table' block node := by
  induction levels generalizing node block with
  | zero =>
    cases node with
    | stmt s => trivial
    | expr e => exact h.elim
  | succ levels ih =>
    cases node with
    | stmt s => trivial
    | expr e =>
      refine ⟨fun p hp => ih (h.1 p hp), fun demand hd => ?_⟩
      obtain ⟨scope, hs⟩ := h.2 demand hd
      exact ⟨scope, hs.mono ht⟩

/-- A settled expression has an answer. -/
theorem Settled.answer {e : Expr} {demand : Demand} {block : Scope}
    (h : Settled setting levels table block (.expr e)) (hd : demand.block = block) :
    ∃ scope, Steady setting levels table (.expr e) demand scope := by
  cases levels with
  | zero => exact h.elim
  | succ levels => exact h.2 demand hd

end Node

/-! ### Other demands on the same expression -/

/-- The part is a settled expression. -/
def Part.Ready (setting : Setting) (levels : Nat) (table : Lifetimes) (block : Scope) (p : Part) :
    Prop :=
  (∃ e, p.node = .expr e) ∧ p.node.Settled setting levels table (p.block block)

private theorem Part.Ready.answer {setting : Setting} {levels : Nat} {table : Lifetimes}
    {block : Scope} {p : Part} (h : p.Ready setting levels table block) {demand : Demand}
    (hd : demand.block = p.block block) :
    ∃ scope, p.node.Steady setting levels table demand scope := by
  obtain ⟨⟨e, he⟩, hs⟩ := h
  rw [he] at hs ⊢
  exact hs.answer hd

/-- A tour without hazards is steady where its parts are settled and its sites are declared. -/
theorem Plan.Tours.exists_steady {α : Type} {setting : Setting} {levels : Nat} {table : Lifetimes}
    {whole : Demand} {Q : α → Prop} {seen : List Answer} {todo : List Stop} {p : Plan α}
    (h : Tours whole False Q seen todo p)
    (hs : ∀ x ∈ seen, x.part.Ready setting levels table whole.block)
    (ht : Stop.All (Part.Ready setting levels table whole.block) todo)
    (hid : ∀ id, .site id ∈ todo → ∃ lifetime, table.get? id = some lifetime) :
    ∃ a, p.Steady (Node.Steady setting levels table) table a := by
  induction h with
  | @done seen a h => exact ⟨a, rfl⟩
  | fail hz => exact hz.elim
  | @first seen todo part demand inner next hq ha hn ih =>
    obtain ⟨scope, hscope⟩ := ht.head.answer ha.1
    obtain ⟨a, hsteady⟩ := ih scope (List.forall_mem_cons.mpr ⟨ht.head, hs⟩) ht.tail
      (fun id hi => hid id (List.mem_cons_of_mem _ hi))
    exact ⟨a, scope, hscope, hsteady⟩
  | again hq hx hf hd hn ih =>
    obtain ⟨x, hx, rfl⟩ := hx
    obtain ⟨scope, hscope⟩ := (hs x hx).answer (congrArg Demand.block hd)
    obtain ⟨a, hsteady⟩ := ih scope hs ht hid
    exact ⟨a, scope, hscope, hsteady⟩
  | declare hz hn ih => exact hz.elim
  | @designate seen todo var lifetime next h hn ih =>
    -- The site was passed before, so its local is found declared.
    obtain ⟨found, hfound⟩ := hid var.id List.mem_cons_self
    obtain ⟨a, hsteady⟩ := ih found hs ht.tail (fun id hi => hid id (List.mem_cons_of_mem _ hi))
    exact ⟨a, found, hfound, hsteady⟩
  | lookup hz h hn ih => exact hz.elim
  | report hn ih => exact ih hs ht hid
  | hint hn ih => exact ih hs ht hid

section Again

variable {setting : Setting} {answers : Node → Demand → Scope → Prop} {table : Lifetimes}

private theorem settle_steady (demand : Demand) (scope : Scope) (finding : Finding) :
    (Plan.settle demand scope finding).Steady answers table scope := by
  refine Plan.Steady.bind_iff.mpr ⟨(), ?_, rfl⟩
  unfold Plan.reportIf
  split <;> exact rfl

private theorem param_steady (rules : Rules) (p : Param) (span : Span) (demand : Demand) :
    ∃ scope, (Rule.param rules p span demand).Steady answers table scope := by
  unfold Rule.param
  split <;> exact ⟨_, settle_steady demand _ _⟩

/-- A local that is declared answers every demand. -/
theorem localVar_steady {var : Local} {lifetime : Lifetime}
    (h : table.get? var.id = some lifetime) (span : Span) (demand : Demand) :
    ∃ scope, (Rule.localVar var span demand).Steady answers table scope := by
  obtain ⟨block, mode, target⟩ := demand
  cases mode with
  | value => exact ⟨_, lifetime, h, settle_steady _ _ _⟩
  | ref => exact ⟨_, lifetime, h, settle_steady _ _ _⟩

/-- An arm answers every demand on its switch, if its pattern matches steadily and what it evaluates
is settled. -/
theorem arm_steady {levels : Nat} {demand demand' : Demand} (hb : demand'.block = demand.block)
    {input scope : Scope} {i : Nat} {a : Arm}
    (h : (Rule.arm input demand i a).Steady (Node.Steady setting levels table) table scope)
    (hp : ∀ p, .part p ∈ Stop.arm i a → p.Ready setting levels table demand'.block) :
    ∃ scope', (Rule.arm input demand' i a).Steady (Node.Steady setting levels table) table
      scope' := by
  obtain ⟨u, hpat, hrest⟩ := Plan.Steady.bind_iff.mp h
  obtain ⟨v, hguard, -⟩ := Plan.Steady.bind_iff.mp hrest
  rw [← Rule.pattern_congr hb] at hpat
  rw [← Rule.forValue_congr hb] at hguard
  have hvalue := hp ⟨[.arm i, .body], .expr a.value, false, .once .forOperand⟩
    (by simp [Stop.arm, Stop.once])
  obtain ⟨scope', hs⟩ := hvalue.answer (Rule.forOperand_block demand')
  refine ⟨scope', Plan.Steady.bind_iff.mpr ⟨u, hpat, Plan.Steady.bind_iff.mpr ⟨v, hguard, ?_⟩⟩⟩
  exact ⟨scope', hs, rfl⟩

private theorem arms_steady {levels : Nat} {demand demand' : Demand}
    (hb : demand'.block = demand.block) {input : Scope} (arms : List Arm) {scopes : List Scope}
    (start : Nat) (h : (Plan.forEach (Rule.arm input demand) arms start).Steady
      (Node.Steady setting levels table) table scopes)
    (hp : ∀ p, .part p ∈ Stop.forEach Stop.arm arms start →
      p.Ready setting levels table demand'.block) :
    ∃ scopes', (Plan.forEach (Rule.arm input demand') arms start).Steady
      (Node.Steady setting levels table) table scopes' := by
  induction arms generalizing start scopes with
  | nil => exact ⟨[], rfl⟩
  | cons a rest ih =>
    obtain ⟨scope, ha, hrest⟩ := Plan.Steady.bind_iff.mp h
    obtain ⟨scopes, hrest, -⟩ := Plan.Steady.bind_iff.mp hrest
    obtain ⟨scope', ha'⟩ := arm_steady hb ha fun p h => hp p (List.mem_append_left _ h)
    obtain ⟨scopes', hrest'⟩ := ih (start + 1) hrest fun p h => hp p (List.mem_append_right _ h)
    refine ⟨scope' :: scopes', Plan.Steady.bind_iff.mpr ⟨scope', ha', ?_⟩⟩
    exact Plan.Steady.bind_iff.mpr ⟨scopes', hrest', rfl⟩

/-- An expression with a steady answer to one demand has one to every demand in the same block, if
everything inside it is settled. -/
theorem expr_steady {levels : Nat} {e : Expr} {demand demand' : Demand} {scope : Scope}
    (hb : demand'.block = demand.block)
    (h : (Rule.expr setting e demand).Steady (Node.Steady setting levels table) table scope)
    (hp : Stop.All (Part.Ready setting levels table demand'.block) (e.stops setting))
    (hid : ∀ id, .site id ∈ e.stops setting → ∃ lifetime, table.get? id = some lifetime) :
    ∃ scope', (Rule.expr setting e demand').Steady (Node.Steady setting levels table) table
      scope' := by
  cases hd : e.form.isDelicate with
  | false =>
    have ht : (Rule.expr setting e demand').Tours demand' False (fun _ => True) []
        (e.stops setting) := Rule.expr_tours setting e (fun h => by simp [hd] at h) demand'
    exact ht.exists_steady (fun _ h => by cases h) hp hid
  | true =>
    obtain ⟨form, ty, span⟩ := e
    cases form with
    | localVar var =>
      obtain ⟨lifetime, hl, -⟩ := h
      exact localVar_steady hl span demand'
    | thisRef =>
      simp only [Rule.expr, Rule.thisRef] at h ⊢
      split
      · next hr =>
        rw [hr] at h
        exact h.elim
      · exact param_steady setting.rules _ span demand'
    | outVar var =>
      obtain ⟨lifetime, hl, -⟩ := h
      obtain ⟨scope', hs⟩ := localVar_steady hl span demand'
      exact ⟨scope', lifetime, hl, hs⟩
    | isPattern operand p =>
      obtain ⟨input, hi, hrest⟩ := Plan.Steady.bind_iff.mp h
      obtain ⟨u, hpat, -⟩ := Plan.Steady.bind_iff.mp hrest
      rw [← Rule.forValue_congr hb] at hi
      rw [← Rule.pattern_congr hb] at hpat
      exact ⟨_, Plan.Steady.bind_iff.mpr ⟨input, hi, Plan.Steady.bind_iff.mpr ⟨u, hpat, rfl⟩⟩⟩
    | switch governing arms =>
      obtain ⟨input, hi, hrest⟩ := Plan.Steady.bind_iff.mp h
      obtain ⟨scopes, harms, -⟩ := Plan.Steady.bind_iff.mp hrest
      rw [← Rule.forValue_congr hb] at hi
      obtain ⟨scopes', harms'⟩ := arms_steady hb arms 0 harms hp.tail
      exact ⟨_, Plan.Steady.bind_iff.mpr ⟨input, hi,
        Plan.Steady.bind_iff.mpr ⟨scopes', harms', rfl⟩⟩⟩
    | _ => cases hd

end Again

end RefLifetime
