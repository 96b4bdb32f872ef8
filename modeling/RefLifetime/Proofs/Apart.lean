import RefLifetime.Proofs.Stops

/-!
# Parts stand apart

No part of a node stands at or below another part of it, so that what happens below one part does
not touch the others.
-/

namespace RefLifetime

/-- Two paths that part ways: neither leads through the other. -/
def Path.Apart : Path → Path → Prop
  | a :: p, b :: q => a = b → Apart p q
  | _, _ => False

namespace Path

/-- It does not matter which of the paths comes first. -/
theorem Apart.symm {p q : Path} (h : Apart p q) : Apart q p := by
  induction p generalizing q with
  | nil => exact h.elim
  | cons a p ih =>
    cases q with
    | nil => exact h.elim
    | cons b q => exact fun hab => ih (h hab.symm)

/-- Paths with a common beginning are apart exactly if what follows it is. -/
theorem apart_append_left (common p q : Path) : Apart (common ++ p) (common ++ q) ↔ Apart p q := by
  induction common with
  | nil => rfl
  | cons a common ih => exact ⟨fun h => ih.mp (h rfl), fun h _ => ih.mpr h⟩

/-- No path goes through two that are apart. -/
theorem Apart.excludes {p q r : Path} (h : Apart p q) (hp : p <+: r) : ¬ q <+: r := by
  induction p generalizing q r with
  | nil => exact h.elim
  | cons a p ih =>
    cases q with
    | nil => exact h.elim
    | cons b q =>
      cases r with
      | nil => simp at hp
      | cons c r =>
        rw [List.cons_prefix_cons] at hp ⊢
        rintro ⟨rfl, hq⟩
        exact ih (h hp.1) hp.2 hq

/-- Different steps from one place lead apart. -/
theorem apart_of_step_ne (common : Path) {a b : Step} (h : a ≠ b) (p q : Path) :
    Apart (common ++ a :: p) (common ++ b :: q) :=
  (apart_append_left common _ _).mpr fun hab => absurd hab h

/-- A place strictly inside a node is not the node's own. -/
theorem not_prefix_self (path : Path) {route : Path} (hr : route ≠ []) :
    ¬ path ++ route <+: path := by
  intro h
  have hl := h.length_le
  rw [List.length_append] at hl
  have := List.length_pos_iff.mpr hr
  omega

end Path

namespace Stop

/-- Parts at routes that are apart; sites have no place of their own. -/
def Apart : Stop → Stop → Prop
  | .part a, .part b => a.route.Apart b.route
  | _, _ => True

/-- Every part of the list is reached from `c` by a step that satisfies `P`. -/
def Heads (c : Path) (P : Step → Prop) (stops : List Stop) : Prop :=
  ∀ a, .part a ∈ stops → ∃ step rest, P step ∧ a.route = c ++ step :: rest

variable {c : Path} {P Q : Step → Prop} {l l' : List Stop}

private theorem Heads.imp (h : Heads c P l) (hPQ : ∀ step, P step → Q step) : Heads c Q l := by
  intro a ha
  obtain ⟨step, rest, hp, hr⟩ := h a ha
  exact ⟨step, rest, hPQ step hp, hr⟩

private theorem heads_nil : Heads c P [] := by
  intro a ha
  simp at ha

private theorem Heads.append (h : Heads c P l) (h' : Heads c P l') :
    Heads c P (l ++ l') := by
  intro a ha
  rcases List.mem_append.mp ha with ha | ha
  · exact h a ha
  · exact h' a ha

private theorem heads_part {part : Part} {step : Step} {rest : Path}
    (h : part.route = c ++ step :: rest) (hp : P step) : Heads c P [.part part] := by
  intro a ha
  obtain rfl : a = part := by simpa using ha
  exact ⟨step, rest, hp, h⟩

/-- Only parts are reached. -/
theorem heads_site (id : Nat) : Heads c P [.site id] := by
  intro a ha
  simp at ha

/-- Parts further down a step are reached by that step. -/
theorem Heads.up {step : Step} (h : Heads (c ++ [step]) P l) (hs : Q step) :
    Heads c Q l := by
  intro a ha
  obtain ⟨next, rest, -, hr⟩ := h a ha
  exact ⟨step, next :: rest, hs, by simp [hr]⟩

/-- Lists whose parts set out in different directions stay apart when joined. -/
theorem pairwise_append (h : l.Pairwise Apart) (h' : l'.Pairwise Apart) (hP : Heads c P l)
    (hQ : Heads c Q l') (hd : ∀ step, P step → ¬ Q step) : (l ++ l').Pairwise Apart := by
  refine List.pairwise_append.mpr ⟨h, h', ?_⟩
  intro a ha b hb
  cases a with
  | site id => trivial
  | part a =>
    cases b with
    | site id => trivial
    | part b =>
      obtain ⟨step, rest, hp, hr⟩ := hP a ha
      obtain ⟨step', rest', hq, hr'⟩ := hQ b hb
      change a.route.Apart b.route
      rw [hr, hr']
      have hne : step ≠ step' := by
        rintro rfl
        exact hd step hp hq
      exact Path.apart_of_step_ne c hne rest rest'

/-- Members of a list that are reached by a step of their own position stand apart. -/
theorem pairwise_forEach {α : Type} {f : Nat → α → List Stop} {g : Nat → Step}
    (hinj : ∀ i j, g i = g j → i = j) (hh : ∀ i a, Heads c (· = g i) (f i a))
    (hp : ∀ i a, (f i a).Pairwise Apart) (items : List α) (start : Nat) :
    (forEach f items start).Pairwise Apart ∧
      Heads c (fun s => ∃ i, start ≤ i ∧ s = g i) (forEach f items start) := by
  induction items generalizing start with
  | nil => exact ⟨List.Pairwise.nil, heads_nil⟩
  | cons item rest ih =>
    obtain ⟨hr, hhr⟩ := ih (start + 1)
    constructor
    · refine pairwise_append (hp start item) hr (hh start item) hhr ?_
      rintro s rfl ⟨i, hi, he⟩
      have := hinj _ _ he
      omega
    · refine ((hh start item).imp ?_).append (hhr.imp ?_)
      · rintro s rfl
        exact ⟨start, Nat.le_refl _, rfl⟩
      · rintro s ⟨i, hi, rfl⟩
        exact ⟨i, by omega, rfl⟩

/-- Single expressions at a step of their own position. -/
theorem pairwise_forEach_single {α : Type} {f : Nat → α → Part} {g : Nat → Step}
    (hinj : ∀ i j, g i = g j → i = j)
    (hr : ∀ i a, ∃ rest, (f i a).route = c ++ g i :: rest) (items : List α) (start : Nat) :
    (forEach (fun i a => [.part (f i a)]) items start).Pairwise Apart ∧
      Heads c (fun s => ∃ i, start ≤ i ∧ s = g i)
        (forEach (fun i a => [.part (f i a)]) items start) := by
  refine pairwise_forEach hinj ?_ (fun i a => List.pairwise_singleton _ _) items start
  intro i a
  obtain ⟨rest, h⟩ := hr i a
  exact heads_part h rfl

/-- A part in front of single expressions that set out in other directions. -/
theorem cons_forEach {α : Type} {part : Part} {f : Nat → α → Part} {s : Step} {g : Nat → Step}
    (hinj : ∀ i j, g i = g j → i = j) (hr : ∀ i a, ∃ rest, (f i a).route = [] ++ g i :: rest)
    (hs : part.route = [s] ∧ ∀ i, s ≠ g i) (items : List α) :
    (.part part :: forEach (fun i a => [.part (f i a)]) items).Pairwise Apart := by
  obtain ⟨hp, hh⟩ := pairwise_forEach_single hinj hr items 0
  refine pairwise_append (List.pairwise_singleton _ _) hp
    (heads_part (c := []) (P := (· = s)) hs.1 rfl) hh ?_
  rintro _ rfl ⟨i, -, he⟩
  exact hs.2 i he

private theorem pairwise_ofOption {α : Type} {f : α → List Stop} (h : ∀ a, (f a).Pairwise Apart)
    (o : Option α) : (ofOption f o).Pairwise Apart := by
  cases o with
  | none => exact List.Pairwise.nil
  | some a => exact h a

private theorem heads_ofOption {α : Type} {f : α → List Stop} (h : ∀ a, Heads c P (f a))
    (o : Option α) : Heads c P (ofOption f o) := by
  cases o with
  | none => exact heads_nil
  | some a => exact h a

/-- Sites stand in nobody's way. -/
theorem pairwise_append_sites {sites : List Stop} (h : l.Pairwise Apart)
    (hs : ∀ s ∈ sites, ∃ id, s = .site id) : (l ++ sites).Pairwise Apart := by
  refine List.pairwise_append.mpr ⟨h, ?_, ?_⟩
  · refine List.pairwise_iff_forall_sublist.mpr ?_
    intro a b hab
    obtain ⟨id, rfl⟩ := hs b (hab.subset (by simp))
    cases a <;> trivial
  · intro a _ b hb
    obtain ⟨id, rfl⟩ := hs b hb
    cases a <;> trivial

private theorem heads_of_sites {sites : List Stop} (hs : ∀ s ∈ sites, ∃ id, s = .site id) :
    Heads c P sites := by
  intro a ha
  obtain ⟨id, h⟩ := hs _ ha
  cases h

end Stop

/-- The stops of a pattern stand apart, below the pattern. -/
structure Stop.Below (route : Path) (stops : List Stop) : Prop where
  apart : stops.Pairwise Stop.Apart
  heads : Stop.Heads route (fun _ => True) stops

namespace Stop.Below

variable {route : Path} {l l' : List Stop}

private theorem nil : Below route [] := ⟨List.Pairwise.nil, heads_nil⟩

private theorem site (id : Nat) : Below route [.site id] :=
  ⟨List.pairwise_singleton _ _, heads_site id⟩

private theorem free (step : Step) (e : Expr) (nested : Bool) :
    Below route [.free (route ++ [step]) e nested] :=
  ⟨List.pairwise_singleton _ _, heads_part rfl trivial⟩

private theorem designation (var : Option Local) :
    Below route (ofOption (fun v => [Stop.site v.id]) var) := by
  cases var with
  | none => exact nil
  | some v => exact site v.id

private theorem up {step : Step} (h : Below (route ++ [step]) l) : Below route l :=
  ⟨h.apart, h.heads.up trivial⟩

/-- Below different steps from one place. -/
theorem append {a b : Step} (h : Below (route ++ [a]) l) (h' : Below (route ++ [b]) l')
    (hab : a ≠ b) : Below route (l ++ l') :=
  ⟨pairwise_append h.apart h'.apart (h.heads.up (Q := (· = a)) rfl) (h'.heads.up (Q := (· = b)) rfl)
      fun _ ha hb => hab (ha.symm.trans hb),
    (h.heads.up trivial).append (h'.heads.up trivial)⟩

/-- One more element in front of those from the next position on. -/
theorem cons {i : Nat} (h : Below (route ++ [.element i]) l)
    (h' : Below route l' ∧ Heads route (fun s => ∃ j, i + 1 ≤ j ∧ s = .element j) l') :
    Below route (l ++ l') ∧ Heads route (fun s => ∃ j, i ≤ j ∧ s = .element j) (l ++ l') := by
  have hh : Heads route (· = .element i) l := h.heads.up rfl
  refine ⟨⟨pairwise_append h.apart h'.1.apart hh h'.2 ?_, (h.heads.up trivial).append h'.1.heads⟩,
    (hh.imp ?_).append (h'.2.imp ?_)⟩
  · rintro s rfl ⟨j, hj, he⟩
    cases he
    omega
  · rintro s rfl
    exact ⟨i, Nat.le_refl i, rfl⟩
  · rintro s ⟨j, hj, rfl⟩
    exact ⟨j, by omega, rfl⟩

private theorem append_designation (h : Below route l) (var : Option Local) :
    Below route (l ++ ofOption (fun v => [Stop.site v.id]) var) := by
  refine ⟨pairwise_append_sites h.apart ?_, h.heads.append (designation var).heads⟩
  intro s hs
  cases var with
  | none => simp [ofOption] at hs
  | some v => exact ⟨v.id, by simpa [ofOption] using hs⟩

end Stop.Below

mutual

/-- The stops of a pattern stand apart below it. -/
theorem Pattern.stops_below (route : Path) (nested : Bool) :
    (p : Pattern) → Stop.Below route (p.stops route nested)
  | .discard | .type _ | .slice none => .nil
  | .constant value | .relational value => .free .operand value nested
  | .declaration var => .designation var
  | .recursive properties var =>
    (Pattern.propertyStops_below route nested properties 0).1.append_designation var
  | .list elements var =>
    (Pattern.elementStops_below route nested elements 0).1.append_designation var
  | .slice (some rest) => (rest.stops_below (route ++ [Step.operand]) nested).up
  | .not inner => (inner.stops_below (route ++ [Step.operand]) nested).up
  | .and left right | .or left right =>
    (left.stops_below (route ++ [Step.left]) nested).append
      (right.stops_below (route ++ [Step.right]) nested) (by decide)
termination_by structural p => p

/-- The stops of list elements stand apart, each below a step of its position. -/
theorem Pattern.elementStops_below (route : Path) (nested : Bool) :
    (elements : List Pattern) → (i : Nat) →
      Stop.Below route (Pattern.elementStops route nested i elements) ∧
        Stop.Heads route (fun s => ∃ j, i ≤ j ∧ s = .element j)
          (Pattern.elementStops route nested i elements)
  | [], _ => ⟨.nil, Stop.heads_nil⟩
  | p :: rest, i =>
    Stop.Below.cons (p.stops_below (route ++ [.element i]) nested)
      (Pattern.elementStops_below route nested rest (i + 1))
termination_by structural elements => elements

/-- The stops of fields stand apart, each below a step of its position. -/
theorem Pattern.propertyStops_below (route : Path) (nested : Bool) :
    (properties : List Property) → (i : Nat) →
      Stop.Below route (Pattern.propertyStops route nested i properties) ∧
        Stop.Heads route (fun s => ∃ j, i ≤ j ∧ s = .element j)
          (Pattern.propertyStops route nested i properties)
  | [], _ => ⟨.nil, Stop.heads_nil⟩
  | ⟨_, p⟩ :: rest, i =>
    Stop.Below.cons (p.stops_below (route ++ [.element i]) nested)
      (Pattern.propertyStops_below route nested rest (i + 1))
termination_by structural properties => properties

end

namespace Stop

/-- An argument stands where it is told to, if it is a part. -/
theorem actual_heads {c : Path} {P : Step → Prop} {step : Step} (hs : P step) (e : Expr) :
    Heads c P (actual (c ++ [step]) e) := by
  unfold actual
  split
  · exact heads_nil
  · exact heads_part rfl hs

private theorem pairwise_actual (route : Path) (e : Expr) : (actual route e).Pairwise Apart := by
  unfold actual
  split
  · exact List.Pairwise.nil
  · exact List.pairwise_singleton _ _

/-- Variables have sites, and there are no parts among these. -/
theorem outVars_sites (vars : List (Option Local)) : ∀ s ∈ outVars vars, ∃ id, s = .site id := by
  intro s hs
  obtain ⟨var, -, he⟩ := List.mem_filterMap.mp hs
  obtain ⟨v, -, rfl⟩ := Option.map_eq_some_iff.mp he
  exact ⟨v.id, rfl⟩

/-- The steps that lead to the parts of an invocation. -/
def IsActualStep (s : Step) : Prop := s = .receiver ∨ ∃ i, s = .argument i

/-- The parts of an invocation stand apart. -/
theorem invocation_apart (receiver : Option Expr) (args : List Argument) :
    (invocation receiver args).Pairwise Apart ∧
      Heads [] IsActualStep (invocation receiver args) := by
  have hr : Heads [] (· = .receiver) (ofOption (actual [.receiver]) receiver) :=
    heads_ofOption (fun e => actual_heads (c := []) (by rfl) e) receiver
  obtain ⟨ha, hh⟩ := pairwise_forEach (c := []) (g := .argument)
    (f := fun i (arg : Argument) => actual [.argument i] arg.value) (by simp)
    (fun i arg => actual_heads (c := []) (by rfl) arg.value) (fun i arg => pairwise_actual _ _)
    args 0
  have hs := outVars_sites ((receiver.toList ++ args.map (·.value)).map (·.form.outVar?))
  constructor
  · refine pairwise_append (pairwise_ofOption (pairwise_actual _) receiver)
      (pairwise_append_sites ha hs) hr (hh.append (heads_of_sites hs)) ?_
    rintro s rfl ⟨i, -, he⟩
    cases he
  · refine (hr.imp fun _ h => .inl h).append ((hh.imp ?_).append (heads_of_sites hs))
    rintro s ⟨i, -, rfl⟩
    exact .inr ⟨i, rfl⟩

/-- The parts of an arm of a switch expression stand apart, below the arm. -/
theorem arm_below (i : Nat) (a : Arm) : Below [.arm i] (arm i a) := by
  have hp := a.pattern.stops_below [.arm i, .pattern] false
  have hpp : Heads [.arm i] (· = .pattern) (a.pattern.stops [.arm i, .pattern] false) :=
    hp.heads.up (c := [.arm i]) rfl
  have hg : Heads [.arm i] (· = .guard) (ofOption (fun e => [free [.arm i, .guard] e]) a.guard) :=
    heads_ofOption (fun e => heads_part (c := [.arm i]) rfl (by rfl)) a.guard
  have hb : Heads [.arm i] (· = .body) [once [.arm i, .body] a.value .forOperand] :=
    heads_part rfl rfl
  refine ⟨?_, (hpp.imp fun _ _ => trivial).append
    ((hg.imp fun _ _ => trivial).append (hb.imp fun _ _ => trivial))⟩
  refine pairwise_append hp.apart ?_ hpp
    ((hg.imp (Q := (· ≠ .pattern)) (by rintro s rfl; decide)).append
      (hb.imp (by rintro s rfl; decide))) (fun _ h h' => h' h)
  refine pairwise_append (pairwise_ofOption (fun e => List.pairwise_singleton _ _) _)
    (List.pairwise_singleton _ _) hg hb ?_
  rintro s rfl h
  cases h

/-- The statements of a block stand apart, below the place of the block. -/
theorem block_below (route : Path) (body : List Stmt) : Below route (block route body) := by
  obtain ⟨hp, hh⟩ := pairwise_forEach_single (c := route) (g := .stmt)
    (f := fun i s => ⟨route ++ [.stmt i], .stmt s, true, .once .enterBlock⟩) (by simp)
    (fun i s => ⟨[], rfl⟩) body 0
  exact ⟨hp, hh.imp fun _ _ => trivial⟩

private theorem declaration_heads {step : Step} {P : Step → Prop} (hs : P step) (nested : Bool)
    (d : Declaration) : Heads [] P (declaration [step] nested d) :=
  (heads_ofOption (fun _ => heads_part rfl hs) d.init).append (heads_site d.var.id)

private theorem pairwise_declaration (route : Path) (nested : Bool) (d : Declaration) :
    (declaration route nested d).Pairwise Apart :=
  pairwise_append_sites (pairwise_ofOption (fun _ => List.pairwise_singleton _ _) d.init)
    fun _ hs => ⟨d.var.id, List.mem_singleton.mp hs⟩

/-- Something guarded, in front of a block, below one step. -/
theorem guarded_below {front : List Stop} (i : Nat) {P : Step → Prop}
    (hf : front.Pairwise Apart) (hh : Heads [.arm i] P front)
    (hP : ∀ s, P s → s ≠ .guard ∧ ∀ j, s ≠ .stmt j) (guard : Option Expr) (body : List Stmt) :
    Below [.arm i]
      (front ++ (ofOption (fun e => [free [.arm i, .guard] e true]) guard ++
        block [.arm i] body)) := by
  have hg : Heads [.arm i] (· = .guard)
      (ofOption (fun e => [free [.arm i, .guard] e true]) guard) :=
    heads_ofOption (fun e => heads_part (c := [.arm i]) rfl (by rfl)) guard
  obtain ⟨hb, hbh⟩ := pairwise_forEach_single (c := [.arm i]) (g := .stmt)
    (f := fun j s => ⟨[.arm i] ++ [.stmt j], .stmt s, true, .once .enterBlock⟩) (by simp)
    (fun j s => ⟨[], rfl⟩) body 0
  have hr : Heads [.arm i] (fun s => s = .guard ∨ ∃ j, s = .stmt j)
      (ofOption (fun e => [free [.arm i, .guard] e true]) guard ++ block [.arm i] body) :=
    (hg.imp fun _ h => .inl h).append (hbh.imp fun _ h => .inr (h.imp fun _ h => h.2))
  refine ⟨pairwise_append hf ?_ hh hr ?_,
    (hh.imp fun _ _ => trivial).append (hr.imp fun _ _ => trivial)⟩
  · refine pairwise_append (pairwise_ofOption (fun e => List.pairwise_singleton _ _) guard) hb hg
      hbh ?_
    rintro s rfl ⟨j, -, he⟩
    cases he
  · rintro s hs (rfl | ⟨j, rfl⟩)
    · exact (hP _ hs).1 rfl
    · exact (hP _ hs).2 j rfl

private theorem switchSection_below (i : Nat) (s : Section) :
    Below [.arm i] (switchSection i s) := by
  obtain ⟨hp, hh⟩ := pairwise_forEach (c := [.arm i]) (g := .label)
    (f := fun j (p : Pattern) => p.stops [.arm i, .label j] true) (by simp)
    (fun j p => (p.stops_below [.arm i, .label j] true).heads.up (c := [.arm i]) (by rfl))
    (fun j p => (p.stops_below [.arm i, .label j] true).apart) s.labels 0
  refine guarded_below i hp hh ?_ s.guard s.body
  rintro s ⟨j, -, rfl⟩
  exact ⟨by simp, by simp⟩

private theorem handler_below (i : Nat) (c : Catch) : Below [.arm i] (handler i c) := by
  have h : Below [.arm i] (ofOption (fun v => [.site v.id]) c.var) := .designation c.var
  refine guarded_below i h.apart (P := fun _ => False) ?_ (fun _ h => h.elim) c.filter c.body
  cases c.var with
  | none => exact heads_nil
  | some v => exact heads_site v.id

end Stop

/-- The parts of an expression stand apart. -/
theorem Expr.stops_apart (setting : Setting) (e : Expr) :
    (e.stops setting).Pairwise Stop.Apart := by
  obtain ⟨form, ty, span⟩ := e
  cases form with
  | literal => exact List.Pairwise.nil
  | defaultValue => exact List.Pairwise.nil
  | typeToken => exact List.Pairwise.nil
  | typeSize => exact List.Pairwise.nil
  | localVar var => exact List.Pairwise.nil
  | param p => exact List.Pairwise.nil
  | thisRef => exact List.Pairwise.nil
  | discard => exact List.Pairwise.nil
  | field receiver member =>
    simp only [stops]
    split
    · exact List.pairwise_singleton _ _
    · exact List.Pairwise.nil
  | arrayElement array indices =>
    exact Stop.cons_forEach (s := .operand) (g := .index) (by simp) (fun i e => ⟨[], rfl⟩)
      ⟨rfl, by simp⟩ indices
  | call receiver method args => exact (Stop.invocation_apart receiver args).1
  | objectCreation method args inits =>
    obtain ⟨ha, hh⟩ := Stop.invocation_apart none args
    obtain ⟨hi, hhi⟩ := Stop.pairwise_forEach_single (c := []) (g := .init)
      (f := fun i (init : FieldInit) => ⟨[.init i], .expr init.value, false, .freely⟩) (by simp)
      (fun i init => ⟨[], rfl⟩) inits 0
    refine Stop.pairwise_append ha hi hh hhi ?_
    rintro s (rfl | ⟨i, rfl⟩) ⟨j, -, he⟩ <;> cases he
  | arrayCreation id sizes elements =>
    obtain ⟨hs, hhs⟩ := Stop.pairwise_forEach_single (c := []) (g := .size)
      (f := fun i e => ⟨[.size i], .expr e, false, .freely⟩) (by simp)
      (fun i e => ⟨[], rfl⟩) sizes 0
    obtain ⟨he, hhe⟩ := Stop.pairwise_forEach_single (c := []) (g := .element)
      (f := fun i e => ⟨[.element i], .expr e, false, .once .forHeap⟩) (by simp)
      (fun i e => ⟨[], rfl⟩) elements 0
    refine Stop.pairwise_append hs he hhs hhe ?_
    rintro s ⟨i, -, rfl⟩ ⟨j, -, he⟩
    cases he
  | delegateCreation receiver method =>
    exact Stop.pairwise_ofOption (fun _ => List.pairwise_singleton _ _) receiver
  | stackAlloc count elements =>
    exact Stop.cons_forEach (s := .operand) (g := .element) (by simp) (fun i e => ⟨[], rfl⟩)
      ⟨rfl, by simp⟩ elements
  | collection elements =>
    simp only [stops]
    split <;>
      exact (Stop.pairwise_forEach_single (c := []) (g := .element) (by simp)
        (fun i e => ⟨[], rfl⟩) elements 0).1
  | conditional condition whenTrue whenFalse byRef =>
    simp [stops, Stop.free, Stop.once, Stop.Apart, Path.Apart]
  | coalesce left right => simp [stops, Stop.once, Stop.Apart, Path.Apart]
  | tuple elements =>
    exact (Stop.pairwise_forEach_single (c := []) (g := .element) (by simp)
      (fun i e => ⟨[], rfl⟩) elements 0).1
  | conversion operand kind =>
    simp only [stops]
    split <;> exact List.pairwise_singleton _ _
  | unary operand =>
    simp only [stops]
    split <;> exact List.pairwise_singleton _ _
  | binary left right =>
    simp only [stops]
    split <;> simp [Stop.free, Stop.once, Stop.Apart, Path.Apart]
  | assignment left right byRef =>
    simp only [stops]
    split <;> simp [Stop.free, Stop.Apart, Path.Apart]
  | compoundAssignment left right => simp [stops, Stop.free, Stop.Apart, Path.Apart]
  | outVar var => exact List.pairwise_singleton _ _
  | isPattern operand p =>
    have hp := p.stops_below [.pattern] false
    refine Stop.pairwise_append (List.pairwise_singleton _ _) hp.apart
      (Stop.heads_part (c := []) (P := (· = .operand)) rfl rfl)
      (hp.heads.up (c := []) (Q := (· = .pattern)) rfl) ?_
    rintro s rfl h
    cases h
  | switch governing arms =>
    obtain ⟨ha, hh⟩ := Stop.pairwise_forEach (c := []) (g := .arm) (f := Stop.arm) (by simp)
      (fun i a => (Stop.arm_below i a).heads.up (c := []) rfl)
      (fun i a => (Stop.arm_below i a).apart) arms 0
    refine Stop.pairwise_append (List.pairwise_singleton _ _) ha
      (Stop.heads_part (c := []) (P := (· = .operand)) rfl rfl) hh ?_
    rintro s rfl ⟨i, -, he⟩
    cases he

/-- The parts of a statement stand apart. -/
theorem Stmt.stops_apart (setting : Setting) (s : Stmt) :
    (s.stops setting).Pairwise Stop.Apart := by
  cases s with
  | block body => exact (Stop.block_below [] body).apart
  | uncheckedBlock body => exact (Stop.block_below [] body).apart
  | declare d => exact Stop.pairwise_declaration [.init 0] false d
  | eval value => exact List.pairwise_singleton _ _
  | yieldReturn value => exact List.pairwise_singleton _ _
  | ret value => exact Stop.pairwise_ofOption (fun _ => List.pairwise_singleton _ _) value
  | throw value => exact Stop.pairwise_ofOption (fun _ => List.pairwise_singleton _ _) value
  | ite condition whenTrue whenFalse =>
    cases whenFalse <;>
      simp [stops, Stop.ofOption, Stop.free, Stop.stmt, Stop.Apart, Path.Apart]
  | whileLoop condition body => simp [stops, Stop.free, Stop.stmt, Stop.Apart, Path.Apart]
  | doLoop condition body => simp [stops, Stop.free, Stop.stmt, Stop.Apart, Path.Apart]
  | forLoop inits condition increments body =>
    obtain ⟨hs, hhs⟩ := Stop.pairwise_forEach_single (c := []) (g := .init)
      (f := fun i s => ⟨[.init i], .stmt s, true, .once .enterBlock⟩) (by simp)
      (fun i s => ⟨[], rfl⟩) inits 0
    obtain ⟨hi, hhi⟩ := Stop.pairwise_forEach_single (c := []) (g := .increment)
      (f := fun i e => ⟨[.increment i], .expr e, true, .freely⟩) (by simp)
      (fun i e => ⟨[], rfl⟩) increments 0
    have hc : Stop.Heads [] (· = .condition)
        (Stop.ofOption (fun e => [.free [.condition] e true]) condition) :=
      Stop.heads_ofOption (fun _ => Stop.heads_part (c := []) rfl (by rfl)) condition
    have hb : Stop.Heads [] (· = .body) [.nestedStmt [.body] body] := Stop.heads_part rfl rfl
    have hib := Stop.pairwise_append hi (List.pairwise_singleton _ _) hhi hb
      (by rintro s ⟨i, -, rfl⟩ h; cases h)
    have hhib := (hhi.imp (Q := fun s => s = .body ∨ ∃ i, s = .increment i)
      (fun _ h => .inr (h.imp fun _ h => h.2))).append (hb.imp fun _ h => .inl h)
    have hcib := Stop.pairwise_append
      (Stop.pairwise_ofOption (fun _ => List.pairwise_singleton _ _) condition) hib hc hhib
      (by rintro s rfl (h | ⟨i, h⟩) <;> cases h)
    refine Stop.pairwise_append hs hcib hhs ((hc.imp (Q := fun s => ∀ i, s ≠ .init i) ?_).append
      (hhib.imp ?_)) ?_
    · rintro s rfl i h
      cases h
    · rintro s (rfl | ⟨i, rfl⟩) j h <;> cases h
    · rintro s ⟨i, -, rfl⟩ h
      exact h i rfl
  | foreach var collection body =>
    simp [stops, Stop.free, Stop.nestedStmt, Stop.Apart, Path.Apart]
  | «using» resources body =>
    obtain ⟨hd, hhd⟩ := Stop.pairwise_forEach (c := []) (g := .init)
      (f := fun i d => Stop.declaration [.init i] true d) (by simp)
      (fun i d => Stop.declaration_heads (by rfl) true d)
      (fun i d => Stop.pairwise_declaration _ true d) resources 0
    refine Stop.pairwise_append hd (List.pairwise_singleton _ _) hhd
      (Stop.heads_part (c := []) (P := (· = .body)) rfl rfl) ?_
    rintro s ⟨i, -, rfl⟩ h
    cases h
  | switch governing sections =>
    obtain ⟨hs, hh⟩ := Stop.pairwise_forEach (c := []) (g := .arm) (f := Stop.switchSection)
      (by simp) (fun i s => (Stop.switchSection_below i s).heads.up (c := []) rfl)
      (fun i s => (Stop.switchSection_below i s).apart) sections 0
    refine Stop.pairwise_append (List.pairwise_singleton _ _) hs
      (Stop.heads_part (c := []) (P := (· = .operand)) rfl rfl) hh ?_
    rintro s rfl ⟨i, -, he⟩
    cases he
  | tryCatch body catches cleanup =>
    have hb := Stop.block_below [.body] body
    obtain ⟨hc, hhc⟩ := Stop.pairwise_forEach (c := []) (g := .arm) (f := Stop.handler)
      (by simp) (fun i c => (Stop.handler_below i c).heads.up (c := []) rfl)
      (fun i c => (Stop.handler_below i c).apart) catches 0
    have hf : Stop.Heads [] (· = .cleanup) (Stop.ofOption (Stop.block [.cleanup]) cleanup) :=
      Stop.heads_ofOption
        (fun final => (Stop.block_below [.cleanup] final).heads.up (c := []) (by rfl)) cleanup
    have hcf := Stop.pairwise_append hc
      (Stop.pairwise_ofOption (fun final => (Stop.block_below [.cleanup] final).apart) cleanup) hhc
      hf (by rintro s ⟨i, -, rfl⟩ h; cases h)
    refine Stop.pairwise_append hb.apart hcf (hb.heads.up (c := []) (Q := (· = .body)) rfl)
      ((hhc.imp (Q := (· ≠ .body)) ?_).append (hf.imp ?_)) (fun _ h h' => h' h)
    · rintro s ⟨i, -, rfl⟩ h
      cases h
    · rintro s rfl h
      cases h
  | «break» => exact List.Pairwise.nil
  | «continue» => exact List.Pairwise.nil
  | empty => exact List.Pairwise.nil

/-- The parts of a node stand apart. -/
theorem Node.stops_apart (setting : Setting) (n : Node) :
    (n.stops setting).Pairwise Stop.Apart := by
  cases n with
  | expr e => exact e.stops_apart setting
  | stmt s => exact s.stops_apart setting

/-- The statements of a method body stand apart. -/
theorem Stop.body_apart (stmts : List Stmt) : (Stop.body stmts).Pairwise Stop.Apart :=
  (Stop.pairwise_forEach_single (c := []) (g := .stmt) (by simp) (fun i s => ⟨[], rfl⟩) stmts 0).1

/-- Two parts of a node are the same or stand apart. -/
theorem Stop.eq_or_apart {stops : List Stop} (h : stops.Pairwise Stop.Apart) {p q : Part}
    (hp : .part p ∈ stops) (hq : .part q ∈ stops) : p = q ∨ p.route.Apart q.route := by
  induction h with
  | nil => cases hp
  | @cons a l ha _ ih =>
    rcases List.mem_cons.mp hp with hp' | hp' <;> rcases List.mem_cons.mp hq with hq' | hq'
    · exact .inl (Stop.part.inj (hp'.trans hq'.symm))
    · subst hp'
      exact .inr (ha _ hq')
    · subst hq'
      exact .inr (Path.Apart.symm (ha _ hp'))
    · exact ih hp' hq'

/-! ### What kind of parts there are -/

namespace Stop

/-- Every part among the stops satisfies `P`. -/
def All (P : Part → Prop) (stops : List Stop) : Prop := ∀ p, .part p ∈ stops → P p

variable {P Q : Part → Prop} {l l' : List Stop}

/-- What holds of all parts may be weakened. -/
theorem All.imp (h : All P l) (hPQ : ∀ p, P p → Q p) : All Q l := fun p hp => hPQ p (h p hp)

/-- Where there are no stops there is nothing to show. -/
theorem all_nil : All P [] := by
  intro p hp
  simp at hp

/-- The parts of two lists of stops. -/
theorem All.append (h : All P l) (h' : All P l') : All P (l ++ l') := by
  intro p hp
  rcases List.mem_append.mp hp with hp | hp
  · exact h p hp
  · exact h' p hp

/-- A part in front of other stops. -/
theorem All.cons {p : Part} (hp : P p) (h : All P l) : All P (.part p :: l) := by
  intro q hq
  rcases List.mem_cons.mp hq with hq | hq
  · cases hq
    exact hp
  · exact h q hq

/-- A site in front is no part. -/
theorem All.cons_site {id : Nat} (h : All P l) : All P (.site id :: l) := by
  intro q hq
  rcases List.mem_cons.mp hq with hq | hq
  · cases hq
  · exact h q hq

/-- The part in front is one of the parts. -/
theorem All.head {p : Part} (h : All P (.part p :: l)) : P p := h p List.mem_cons_self

/-- The parts behind the first stop are among the parts. -/
theorem All.tail {stop : Stop} (h : All P (stop :: l)) : All P l :=
  fun p hp => h p (List.mem_cons_of_mem _ hp)

/-- The part of a single stop. -/
theorem all_part {p : Part} (hp : P p) : All P [.part p] := all_nil.cons hp

/-- What holds of the stops for each member of a list holds of all of them. -/
theorem all_members {α : Type} {f : Nat → α → List Stop} {items : List α}
    (h : ∀ i, ∀ a ∈ items, All P (f i a)) (start : Nat) : All P (forEach f items start) := by
  induction items generalizing start with
  | nil => exact all_nil
  | cons item rest ih =>
    refine (h start item List.mem_cons_self).append (ih (fun i a ha => ?_) (start + 1))
    exact h i a (List.mem_cons_of_mem _ ha)

/-- The parts of a list of items, from those of each item. -/
theorem all_forEach {α : Type} {f : Nat → α → List Stop} (h : ∀ i a, All P (f i a))
    (items : List α) (start : Nat) : All P (forEach f items start) :=
  all_members (fun i a _ => h i a) start

/-- The members of a list of expressions are parts of one kind. -/
theorem all_exprs {place : Nat → Path} {asking : Asking}
    (h : ∀ i e, P ⟨place i, .expr e, false, asking⟩) (es : List Expr) :
    All P (forEach (fun i e => [.part ⟨place i, .expr e, false, asking⟩]) es) :=
  all_forEach (fun i e => all_part (h i e)) es 0

/-- The parts of something that may be absent. -/
theorem all_ofOption {α : Type} {f : α → List Stop} (h : ∀ a, All P (f a)) (o : Option α) :
    All P (ofOption f o) := by
  cases o with
  | none => exact all_nil
  | some a => exact h a

/-- Sites alone contain no part. -/
theorem all_of_sites (hs : ∀ s ∈ l, ∃ id, s = .site id) : All P l := by
  intro p hp
  obtain ⟨id, h⟩ := hs _ hp
  cases h

private theorem Heads.all {c : Path} {D : Step → Prop} (h : Heads c D l) :
    All (·.route ≠ []) l := by
  intro p hp he
  obtain ⟨step, rest, -, hr⟩ := h p hp
  rw [hr] at he
  simp at he

/-- An expression that stands strictly inside its node, in the block of the node or in a block that
is `nested` in it. -/
def Inner (nested : Bool) (p : Part) : Prop :=
  p.route ≠ [] ∧ p.nested = nested ∧ ∃ e, p.node = .expr e

/-- Such an expression, if it is asked for freely. -/
def Loose (nested : Bool) (p : Part) : Prop := Inner nested p ∧ p.asking = .freely

private theorem all_actual {route : Path} (hr : route ≠ []) (e : Expr) :
    All (Loose false) (actual route e) := by
  unfold actual
  split
  · exact all_nil
  · exact all_part ⟨⟨hr, rfl, e, rfl⟩, rfl⟩

/-- The receiver and the arguments of an invocation are asked for freely. -/
theorem all_invocation (receiver : Option Expr) (args : List Argument) :
    All (Loose false) (invocation receiver args) := by
  refine (all_ofOption (all_actual (List.cons_ne_nil _ _)) receiver).append (.append ?_ ?_)
  · exact all_forEach (fun i arg => all_actual (List.cons_ne_nil _ _) arg.value) args 0
  · exact all_of_sites (outVars_sites _)

end Stop

mutual

/-- A pattern is made of expressions that are asked for freely. -/
theorem Pattern.stops_loose (route : Path) (nested : Bool) :
    (p : Pattern) → Stop.All (Stop.Loose nested) (p.stops route nested)
  | .discard | .type _ | .slice none => Stop.all_nil
  | .constant value | .relational value => Stop.all_part ⟨⟨by simp, rfl, value, rfl⟩, rfl⟩
  | .declaration none => Stop.all_nil
  | .declaration (some _) => Stop.all_nil.cons_site
  | .recursive properties var =>
    (Pattern.propertyStops_loose route nested properties 0).append
      (Stop.all_ofOption (fun _ => Stop.all_nil.cons_site) var)
  | .list elements var =>
    (Pattern.elementStops_loose route nested elements 0).append
      (Stop.all_ofOption (fun _ => Stop.all_nil.cons_site) var)
  | .slice (some rest) => rest.stops_loose (route ++ [Step.operand]) nested
  | .not inner => inner.stops_loose (route ++ [Step.operand]) nested
  | .and left right | .or left right =>
    (left.stops_loose (route ++ [Step.left]) nested).append
      (right.stops_loose (route ++ [Step.right]) nested)
termination_by structural p => p

private theorem Pattern.elementStops_loose (route : Path) (nested : Bool) :
    (elements : List Pattern) → (i : Nat) →
      Stop.All (Stop.Loose nested) (Pattern.elementStops route nested i elements)
  | [], _ => Stop.all_nil
  | p :: rest, i =>
    (p.stops_loose (route ++ [Step.element i]) nested).append
      (Pattern.elementStops_loose route nested rest (i + 1))
termination_by structural elements => elements

private theorem Pattern.propertyStops_loose (route : Path) (nested : Bool) :
    (properties : List Property) → (i : Nat) →
      Stop.All (Stop.Loose nested) (Pattern.propertyStops route nested i properties)
  | [], _ => Stop.all_nil
  | ⟨_, p⟩ :: rest, i =>
    (p.stops_loose (route ++ [Step.element i]) nested).append
      (Pattern.propertyStops_loose route nested rest (i + 1))
termination_by structural properties => properties

end

/-- An expression is made of expressions, all in its own block. -/
theorem Expr.stops_inner (setting : Setting) (e : Expr) :
    Stop.All (Stop.Inner false) (e.stops setting) := by
  obtain ⟨form, ty, span⟩ := e
  have hp {route : Path} {asking : Asking} (hr : route ≠ []) (e : Expr) :
      Stop.Inner false ⟨route, .expr e, false, asking⟩ := ⟨hr, rfl, e, rfl⟩
  have hl {l : List Stop} (h : Stop.All (Stop.Loose false) l) : Stop.All (Stop.Inner false) l :=
    h.imp fun _ h => h.1
  have hes {place : Nat → Path} {asking : Asking} (hr : ∀ i, place i ≠ []) (es : List Expr) :
      Stop.All (Stop.Inner false)
        (Stop.forEach (fun i e => [.part ⟨place i, .expr e, false, asking⟩]) es) :=
    Stop.all_exprs (fun i e => hp (hr i) e) es
  cases form with
  | literal | defaultValue | typeToken | typeSize | localVar _ | param _ | thisRef | discard =>
    exact Stop.all_nil
  | field receiver member =>
    simp only [stops]
    split
    · exact Stop.all_part (hp (by simp) _)
    · exact Stop.all_nil
  | arrayElement array indices => exact (hes (by simp) indices).cons (hp (by simp) array)
  | call receiver method args => exact hl (Stop.all_invocation receiver args)
  | objectCreation method args inits =>
    refine (hl (Stop.all_invocation none args)).append (Stop.all_forEach (fun i init => ?_) inits 0)
    exact Stop.all_part (hp (by simp) init.value)
  | arrayCreation id sizes elements => exact (hes (by simp) sizes).append (hes (by simp) elements)
  | delegateCreation receiver method =>
    exact Stop.all_ofOption (fun e => Stop.all_part (hp (by simp) e)) receiver
  | stackAlloc count elements => exact (hes (by simp) elements).cons (hp (by simp) count)
  | collection elements =>
    simp only [stops]
    split <;> exact hes (by simp) elements
  | conditional condition whenTrue whenFalse byRef =>
    exact ((Stop.all_part (hp (by simp) whenFalse)).cons (hp (by simp) whenTrue)).cons
      (hp (by simp) condition)
  | coalesce left right | compoundAssignment left right =>
    exact (Stop.all_part (hp (by simp) right)).cons (hp (by simp) left)
  | tuple elements => exact hes (by simp) elements
  | conversion operand kind =>
    simp only [stops]
    split <;> exact Stop.all_part (hp (by simp) operand)
  | unary operand =>
    simp only [stops]
    split <;> exact Stop.all_part (hp (by simp) operand)
  | binary left right | assignment left right byRef =>
    simp only [stops]
    split <;> exact (Stop.all_part (hp (by simp) right)).cons (hp (by simp) left)
  | outVar var => exact Stop.all_nil.cons_site
  | isPattern operand p => exact (hl (p.stops_loose [.pattern] false)).cons (hp (by simp) operand)
  | switch governing arms =>
    refine (Stop.all_forEach (fun i a => ?_) arms 0).cons (hp (by simp) governing)
    refine (hl (a.pattern.stops_loose [.arm i, .pattern] false)).append (.append ?_ ?_)
    · exact Stop.all_ofOption (fun e => Stop.all_part (hp (by simp) e)) a.guard
    · exact Stop.all_part (hp (by simp) a.value)

/-- The parts of a statement stand strictly inside it. -/
theorem Stmt.stops_inside (setting : Setting) (s : Stmt) :
    Stop.All (·.route ≠ []) (s.stops setting) := by
  have hp {p : Part} (hr : p.route ≠ []) : Stop.All (·.route ≠ []) [.part p] := Stop.all_part hr
  have hd {step : Step} (nested : Bool) (d : Declaration) :
      Stop.All (·.route ≠ []) (Stop.declaration [step] nested d) :=
    (Stop.all_ofOption (fun _ => hp (by simp)) d.init).append Stop.all_nil.cons_site
  cases s with
  | block body | uncheckedBlock body => exact (Stop.block_below [] body).heads.all
  | declare d => exact hd false d
  | eval value | yieldReturn value => exact hp (by simp)
  | ret value | throw value => exact Stop.all_ofOption (fun _ => hp (by simp)) value
  | ite condition whenTrue whenFalse =>
    refine .append ((hp (by simp)).cons (by simp)) ?_
    exact Stop.all_ofOption (fun _ => hp (by simp)) whenFalse
  | whileLoop condition body | doLoop condition body => exact (hp (by simp)).cons (by simp)
  | forLoop inits condition increments body =>
    refine (Stop.all_forEach (fun i _ => hp (by simp)) inits 0).append (.append ?_ (.append ?_ ?_))
    · exact Stop.all_ofOption (fun _ => hp (by simp)) condition
    · exact Stop.all_forEach (fun i _ => hp (by simp)) increments 0
    · exact hp (by simp)
  | foreach var collection body => exact .cons (by simp) (.cons_site (hp (by simp)))
  | «using» resources body =>
    exact (Stop.all_forEach (fun i d => hd true d) resources 0).append (hp (by simp))
  | switch governing sections =>
    refine .cons (by simp) (Stop.all_forEach (fun i s => ?_) sections 0)
    exact (Stop.switchSection_below i s).heads.all
  | tryCatch body catches cleanup =>
    refine (Stop.block_below [.body] body).heads.all.append (.append ?_ ?_)
    · exact Stop.all_forEach (fun i c => (Stop.handler_below i c).heads.all) catches 0
    · exact Stop.all_ofOption (fun f => (Stop.block_below [.cleanup] f).heads.all) cleanup
  | «break» | «continue» | empty => exact Stop.all_nil

/-- The parts of a node stand strictly inside it. -/
theorem Node.stops_inside (setting : Setting) (n : Node) :
    Stop.All (·.route ≠ []) (n.stops setting) := by
  cases n with
  | expr e => exact (e.stops_inner setting).imp fun _ h => h.1
  | stmt s => exact s.stops_inside setting

end RefLifetime
