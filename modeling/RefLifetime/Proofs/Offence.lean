import RefLifetime.Proofs.Keeping

/-!
# The first offence

Whether an analysis fails is a matter of syntax. A node that is nested too deeply, a receiver in a
method that has none and a local without an earlier site are offences, and a walk fails at the first
one on its itinerary. Visits made quietly, for the value or from memory neither add an offence nor
hide one, as they are of parts that were passed before.
-/

namespace RefLifetime

/-- What is wrong with a node whatever its nesting, when the `declared` locals are known. -/
def Node.offence? (method : Method) (declared : Nat → Bool) : Node → Option Failure
  | .expr ⟨.thisRef, _, span⟩ =>
    if method.receiver.isNone then some (.missingReceiver method.name span) else none
  | .expr ⟨.localVar var, _, span⟩ =>
    if declared var.id then none else some (.undeclaredLocal var.name span)
  | _ => none

/-- More known locals cause no offence. -/
theorem Node.offence?_mono {method : Method} {declared declared' : Nat → Bool} {node : Node}
    (hd : ∀ id, declared id = true → declared' id = true)
    (h : node.offence? method declared = none) : node.offence? method declared' = none := by
  unfold offence? at h ⊢
  split
  · exact h
  · next var _ _ =>
    dsimp only at h
    by_cases hv : declared var.id = true
    · rw [if_pos (hd var.id hv)]
    · rw [if_neg hv] at h
      cases h
  · rfl

namespace Landmark

/-- The landmark is a site of the local. -/
def declares (id : Nat) : Landmark → Bool
  | .node _ _ => false
  | .site other => id == other

/-- What is wrong at a landmark, when the `declared` locals are known. -/
def offence? (method : Method) (limit : Nat) (declared : Nat → Bool) : Landmark → Option Failure
  | .node n here =>
    if limit < here.level then some (.depthExceeded limit (n.span method.span))
    else n.offence? method declared
  | .site _ => none

/-- The locals that are known after passing some landmarks. -/
def after (declared : Nat → Bool) (passed : List Landmark) : Nat → Bool :=
  fun id => declared id || passed.any (declares id)

/-- Passes the landmarks one after another, up to the first offence. -/
def scan (method : Method) (limit : Nat) (declared : Nat → Bool) :
    List Landmark → Except Failure (Nat → Bool)
  | [] => .ok declared
  | landmark :: rest =>
    match landmark.offence? method limit declared with
    | some failure => .error failure
    | none => scan method limit (after declared [landmark]) rest

variable {method : Method} {limit : Nat} {declared declared' : Nat → Bool}

@[simp] private theorem after_nil : after declared [] = declared := by
  funext id
  simp [after]

private theorem after_append (passed more : List Landmark) :
    after declared (passed ++ more) = after (after declared passed) more := by
  funext id
  simp [after, Bool.or_assoc]

@[simp] private theorem after_node (n : Node) (here : Standing) :
    after declared [.node n here] = declared := by
  funext id
  simp [after, declares]

private theorem after_site {id : Nat} (h : declared id = true) :
    after declared [.site id] = declared := by
  funext other
  by_cases ho : other = id <;> simp [after, declares, ho, h]

private theorem scan_append (landmarks more : List Landmark) :
    scan method limit declared (landmarks ++ more) =
      scan method limit declared landmarks >>= fun known => scan method limit known more := by
  induction landmarks generalizing declared with
  | nil => rfl
  | cons landmark rest ih =>
    simp only [List.cons_append, scan]
    split
    · rfl
    · exact ih

/-- A scan that goes through knows the sites that it passed. -/
theorem after_of_scan {landmarks : List Landmark}
    (h : scan method limit declared landmarks = .ok declared') :
    declared' = after declared landmarks := by
  induction landmarks generalizing declared with
  | nil =>
    rw [after_nil]
    exact (Except.ok.inj h).symm
  | cons landmark rest ih =>
    simp only [scan] at h
    split at h
    · cases h
    · rw [ih h, ← after_append, List.singleton_append]

/-- A scan that stops has passed everything ahead of the offence. -/
theorem exists_of_scan_error {landmarks : List Landmark} {failure : Failure}
    (h : scan method limit declared landmarks = .error failure) :
    ∃ before landmark rest, landmarks = before ++ landmark :: rest ∧
      scan method limit declared before = .ok (after declared before) ∧
      landmark.offence? method limit (after declared before) = some failure := by
  induction landmarks generalizing declared with
  | nil => cases h
  | cons landmark rest ih =>
    simp only [scan] at h
    split at h
    · next cause ho =>
      cases h
      exact ⟨[], landmark, rest, rfl, by rw [after_nil]; rfl, by rw [after_nil]; exact ho⟩
    · next ho =>
      obtain ⟨before, found, more, rfl, hs, hf⟩ := ih h
      rw [← after_append] at hs hf
      refine ⟨landmark :: before, found, more, rfl, ?_, hf⟩
      simp only [scan, ho]
      exact hs

/-- Everything ahead of a landmark can be passed if no landmark ahead of it offends. -/
theorem scan_eq_ok {landmarks : List Landmark}
    (h : ∀ before landmark rest, landmarks = before ++ landmark :: rest →
      landmark.offence? method limit (after declared before) = none) :
    scan method limit declared landmarks = .ok (after declared landmarks) := by
  cases hs : scan method limit declared landmarks with
  | ok known => rw [after_of_scan hs]
  | error failure =>
    obtain ⟨before, landmark, rest, hl, -, ho⟩ := exists_of_scan_error hs
    rw [h before landmark rest hl] at ho
    cases ho

/-- The offence at which a scan stops. -/
theorem scan_eq_error {before rest : List Landmark} {landmark : Landmark} {failure : Failure}
    (hb : scan method limit declared before = .ok (after declared before))
    (ho : landmark.offence? method limit (after declared before) = some failure) :
    scan method limit declared (before ++ landmark :: rest) = .error failure := by
  rw [scan_append, hb]
  change scan method limit (after declared before) (landmark :: rest) = _
  simp only [scan, ho]

/-- A scan that goes through meets no offence. -/
theorem offence?_of_scan {before rest : List Landmark} {landmark : Landmark}
    (h : scan method limit declared (before ++ landmark :: rest) = .ok declared') :
    landmark.offence? method limit (after declared before) = none := by
  rw [scan_append] at h
  cases hb : scan method limit declared before with
  | error failure =>
    rw [hb] at h
    cases h
  | ok known =>
    rw [hb, after_of_scan hb] at h
    change scan method limit (after declared before) (landmark :: rest) = _ at h
    simp only [scan] at h
    split at h
    · cases h
    · assumption

/-- A scan fails with the first offence. -/
theorem scan_error_iff {landmarks : List Landmark} {failure : Failure} :
    scan method limit declared landmarks = .error failure ↔
      ∃ before landmark rest, landmarks = before ++ landmark :: rest ∧
        landmark.offence? method limit (after declared before) = some failure ∧
        ∀ earlier passed between, before = earlier ++ passed :: between →
          passed.offence? method limit (after declared earlier) = none := by
  constructor
  · intro h
    obtain ⟨before, landmark, rest, hl, hb, ho⟩ := exists_of_scan_error h
    refine ⟨before, landmark, rest, hl, ho, fun earlier passed between he => ?_⟩
    rw [he] at hb
    exact offence?_of_scan hb
  · rintro ⟨before, landmark, rest, rfl, ho, hb⟩
    exact scan_eq_error (scan_eq_ok hb) ho

/-- A scan fails if and only if there is an offence. -/
theorem exists_scan_error_iff {landmarks : List Landmark} :
    (∃ failure, scan method limit declared landmarks = .error failure) ↔
      ∃ before landmark rest, landmarks = before ++ landmark :: rest ∧
        landmark.offence? method limit (after declared before) ≠ none := by
  constructor
  · rintro ⟨failure, h⟩
    obtain ⟨before, landmark, rest, hl, -, ho⟩ := exists_of_scan_error h
    exact ⟨before, landmark, rest, hl, by simp [ho]⟩
  · rintro ⟨before, landmark, rest, rfl, ho⟩
    cases hs : scan method limit declared (before ++ landmark :: rest) with
    | error failure => exact ⟨failure, rfl⟩
    | ok known => exact absurd (offence?_of_scan hs) ho

private theorem offence?_mono {landmark : Landmark}
    (hd : ∀ id, declared id = true → declared' id = true)
    (h : landmark.offence? method limit declared = none) :
    landmark.offence? method limit declared' = none := by
  cases landmark with
  | site id => rfl
  | node n here =>
    simp only [offence?] at h ⊢
    split at h
    · cases h
    · next hl =>
      rw [if_neg hl]
      exact Node.offence?_mono hd h

/-- The landmarks can be passed once more, and leave nothing to declare. -/
def Settled (method : Method) (limit : Nat) (declared : Nat → Bool) (landmarks : List Landmark) :
    Prop :=
  scan method limit declared landmarks = .ok declared

/-- What was passed can be passed once more, also when more locals are known by then. -/
theorem settled_of_scan {landmarks : List Landmark} {known : Nat → Bool}
    (h : scan method limit declared landmarks = .ok declared')
    (hd : ∀ id, declared' id = true → known id = true) :
    Settled method limit known landmarks := by
  have hk (id : Nat) : after declared landmarks id = true → known id = true := by
    rw [← after_of_scan h]
    exact hd id
  have hle (id : Nat) (hi : declared id = true) : known id = true :=
    hk id (by simp [after, hi])
  have hs : scan method limit known landmarks = .ok (after known landmarks) := by
    refine scan_eq_ok fun before landmark rest hl => ?_
    rw [hl] at h
    refine offence?_mono (fun id => ?_) (offence?_of_scan h)
    simp only [after, Bool.or_eq_true]
    exact Or.imp_left (hle id)
  have ha : after known landmarks = known := by
    funext id
    rw [after, Bool.or_eq_left_iff_imp]
    exact fun hi => hk id (by simp [after, hi])
  rw [Settled, hs, ha]

private theorem Settled.mono {landmarks : List Landmark}
    (h : Settled method limit declared landmarks)
    (hd : ∀ id, declared id = true → declared' id = true) :
    Settled method limit declared' landmarks :=
  settled_of_scan h hd

/-- What settles a whole settles its parts. -/
theorem Settled.of_append {landmarks more : List Landmark}
    (h : Settled method limit declared (landmarks ++ more)) :
    Settled method limit declared landmarks ∧ Settled method limit declared more := by
  rw [Settled, scan_append] at h
  cases hs : scan method limit declared landmarks with
  | error failure =>
    rw [hs] at h
    cases h
  | ok known =>
    rw [hs] at h
    have h : scan method limit known more = .ok declared := h
    -- What the first part adds is known in the end, hence was known from the beginning.
    have hk (id : Nat) (hi : known id = true) : declared id = true := by
      rw [after_of_scan h]
      simp [after, hi]
    exact ⟨settled_of_scan hs hk, settled_of_scan h fun _ hi => hi⟩

end Landmark

/-! ### Runs and their verdicts -/

/-- The locals that are on record. -/
def State.declared (s : State) : Nat → Bool := s.lifetimes.contains

/-- The failure of a walk, or else the locals that it has on record. -/
def Ending.verdict {α : Type} : Ending α → Except Failure (Nat → Bool)
  | .ok _ s => .ok s.declared
  | .error failure _ => .error failure

/-- A verdict is passed on if what follows depends on the locals on record. -/
theorem Ending.verdict_andThen {α β : Type} {r : Ending α} {f : α → State → Ending β}
    {k : (Nat → Bool) → Except Failure (Nat → Bool)}
    (h : ∀ a s, r = .ok a s → (f a s).verdict = k s.declared) :
    (r.andThen f).verdict = r.verdict >>= k := by
  cases r with
  | ok a s => exact h a s rfl
  | error failure s => rfl

namespace State

private theorem declared_tell (s : State) (mood : Mood) (event : Event) :
    (s.tell mood event).declared = s.declared := by
  unfold tell
  split <;> rfl

private theorem declared_declare (s : State) (var : Local) (lifetime : Lifetime) :
    (s.declare var lifetime).declared = Landmark.after s.declared [.site var.id] := by
  funext id
  by_cases h : id = var.id <;>
    simp [declared, declare, Lifetimes.contains, Lifetimes.get?_insert, Landmark.after,
      Landmark.declares, h]

end State

namespace Walker

variable (w : Walker)

/-- A visit is answered from memory, or else its verdict is that of the computation. -/
theorem verdict_visit (levels : Nat) (mood : Mood) (path : Path) (node : Node) (demand : Demand)
    (s : State) :
    (¬ s.Fresh path ∧
        Ending.verdict (w.visit levels mood path node demand s) = .ok s.declared) ∨
      ∃ s', s'.lifetimes = s.lifetimes ∧ s'.memo = s.memo ∧
        Ending.verdict (w.visit levels mood path node demand s) =
          Ending.verdict (w.compute levels mood path node demand s') := by
  cases node with
  | stmt st =>
    rw [visit_stmt]
    exact .inr ⟨s, rfl, rfl, rfl⟩
  | expr e =>
    cases hm : w.remembered s path demand mood.quiet with
    | some scope =>
      rw [visit_recalled w hm]
      refine .inl ⟨fun hf => ?_, rfl⟩
      rw [w.remembered_fresh hf] at hm
      cases hm
    | none =>
      rw [visit_computed w hm]
      refine .inr ⟨s.note (.visited path demand mood.quiet false), rfl, rfl, ?_⟩
      rw [Ending.verdict_andThen (k := pure) fun _ _ _ => rfl]
      exact bind_pure _

/-- With so many levels to go, a visit fails at the first offence among the landmarks of the node,
if nothing is remembered of it or all of it was passed before. -/
def Scans (levels : Nat) : Prop :=
  ∀ mood (here : Standing) node demand (s : State), here.level + levels = w.limit + 1 →
    s.Fresh here.path ∨
      Landmark.Settled w.setting.method w.limit s.declared (node.landmarks here) →
    Ending.verdict (w.visit levels mood here.path node demand s) =
      Landmark.scan w.setting.method w.limit s.declared (node.landmarks here)

/-- Half way through the stops of a node that stands `here`: what was seen can be passed once more,
and so can what is to do, unless nothing is remembered of that. -/
structure OnTrack (here : Standing) (seen : List Answer) (todo : List Stop) (s : State) : Prop where
  ready : s.Ahead here.path seen todo ∨
    Landmark.Settled w.setting.method w.limit s.declared (Stop.landmarks here todo)
  passed : ∀ x ∈ seen, Landmark.Settled w.setting.method w.limit s.declared
    (x.part.node.landmarks (here.part x.part.route))

namespace OnTrack

variable {w} {here : Standing} {seen : List Answer} {todo : List Stop} {s s' : State}

/-- The next part is as `Scans` needs it. -/
theorem head {p : Part} (h : w.OnTrack here seen (.part p :: todo) s) :
    s.Fresh (here.part p.route).path ∨ Landmark.Settled w.setting.method w.limit s.declared
      (p.node.landmarks (here.part p.route)) := by
  rcases h.ready with ha | hs
  · exact .inl ha.head
  · rw [Stop.landmarks_cons_part] at hs
    exact .inr hs.of_append.1

/-- After the visit of the next part. -/
theorem first {x : Answer} (h : w.OnTrack here seen (.part x.part :: todo) s)
    (hv : Landmark.scan w.setting.method w.limit s.declared
      (x.part.node.landmarks (here.part x.part.route)) = .ok s'.declared)
    (hs : s.SameOutside (here.path ++ x.part.route) s') : w.OnTrack here (x :: seen) todo s' := by
  have hd (id : Nat) (hi : s.declared id = true) : s'.declared id = true := by
    rw [Landmark.after_of_scan hv]
    simp [Landmark.after, hi]
  constructor
  · rcases h.ready with ha | ht
    · exact .inl (ha.first hs)
    · rw [Stop.landmarks_cons_part] at ht
      exact .inr (ht.of_append.2.mono hd)
  · refine List.forall_mem_cons.mpr ⟨Landmark.settled_of_scan hv fun _ hi => hi, ?_⟩
    exact fun y hy => (h.passed y hy).mono hd

/-- After another visit of a part that was seen. -/
theorem again {x : Answer} (h : w.OnTrack here seen todo s) (hx : x ∈ seen)
    (hd : s'.declared = s.declared) (hs : s.SameOutside (here.path ++ x.part.route) s') :
    w.OnTrack here seen todo s' := by
  refine ⟨h.ready.imp (fun ha => ha.again hx hs) fun ht => ?_, ?_⟩
  · rw [hd]
    exact ht
  · rw [hd]
    exact h.passed

/-- After a step that remembers nothing and takes no local off the record. -/
theorem mono (h : w.OnTrack here seen todo s) (hm : s'.memo = s.memo)
    (hd : ∀ id, s.declared id = true → s'.declared id = true) : w.OnTrack here seen todo s' :=
  ⟨h.ready.imp (fun ha => ha.of_memo hm) fun ht => ht.mono hd, fun x hx => (h.passed x hx).mono hd⟩

private theorem site {id : Nat} (h : w.OnTrack here seen (.site id :: todo) s) :
    w.OnTrack here seen todo s := by
  refine ⟨h.ready.imp (fun ha => ha.site) fun ht => ?_, h.passed⟩
  rw [Stop.landmarks_cons_site, ← List.singleton_append] at ht
  exact ht.of_append.2

private theorem declare {var : Local} (h : w.OnTrack here seen (.site var.id :: todo) s)
    (lifetime : Lifetime) : w.OnTrack here seen todo (s.declare var lifetime) := by
  refine h.site.mono rfl fun id hi => ?_
  rw [State.declared_declare]
  simp [Landmark.after, hi]

private theorem tell (h : w.OnTrack here seen todo s) (mood : Mood) (event : Event) :
    w.OnTrack here seen todo (s.tell mood event) := by
  refine h.mono (s.memo_tell mood event) fun id hi => ?_
  rw [State.declared_tell]
  exact hi

end OnTrack

end Walker

/-- A run fails at the first offence among the landmarks of its stops, if its visits do and the rule
itself does not fail. -/
theorem Plan.Tours.run_verdict {α : Type} {w : Walker} {levels : Nat} (hw : w.Scans levels)
    (here : Standing) (hl : here.level + levels = w.limit) {whole : Demand} {hazard : Prop}
    {Q R : α → Prop} {seen : List Answer} {todo : List Stop} {p : Plan α}
    (h : Tours whole hazard Q seen todo p) {node : Node} (hn : node.mayFail = false)
    {block : Scope} (hc : p.Honours (node.contract (fun _ => True) block) R) {mood : Mood}
    {s : State} (ht : w.OnTrack here seen todo s) :
    Ending.verdict (p.run (fun route part asked inner =>
        w.visit levels inner (here.path ++ route) part asked) mood s) =
      Landmark.scan w.setting.method w.limit s.declared (Stop.landmarks here todo) := by
  have hmay : ¬ node.mayFail = true := by simp [hn]
  induction h generalizing s with
  | done h => rfl
  | fail hz => exact absurd hc hmay
  | @first seen todo part demand inner next hq ha _ ih =>
    have hv := hw (inner.within mood) (here.part part.route) part.node demand s
      (by simp only [Standing.part]; omega) ht.head
    have hs := w.visit_sameOutside levels (inner.within mood) (here.path ++ part.route) part.node
      demand s
    rw [Plan.run_visit, Stop.landmarks_cons_part, Landmark.scan_append, ← hv]
    apply Ending.verdict_andThen
    intro scope s' hr
    simp only [Standing.part] at hv
    rw [hr] at hv hs
    exact ih scope (hc.2 scope fun _ => trivial) (ht.first (x := ⟨part, demand, scope⟩) hv.symm hs)
  | @again seen todo part demand inner next hq hx hf hd _ ih =>
    obtain ⟨x, hx, rfl⟩ := hx
    have hp := ht.passed x hx
    have hv := hw (inner.within mood) (here.part x.part.route) x.part.node demand s
      (by simp only [Standing.part]; omega) (.inr hp)
    have hs := w.visit_sameOutside levels (inner.within mood) (here.path ++ x.part.route)
      x.part.node demand s
    rw [hp] at hv
    rw [Plan.run_visit, Ending.verdict_andThen (k := fun known =>
      Landmark.scan w.setting.method w.limit known (Stop.landmarks here todo))]
    · simp only [Standing.part] at hv
      rw [hv]
      rfl
    · intro scope s' hr
      simp only [Standing.part] at hv
      rw [hr] at hv hs
      exact ih scope (hc.2 scope fun _ => trivial) (ht.again hx (Except.ok.inj hv) hs)
  | @declare seen todo var lifetime next hz _ ih =>
    have hr := ih hc.2 (ht.declare lifetime)
    rw [State.declared_declare] at hr
    exact hr
  | @designate seen todo var lifetime next h _ ih =>
    have hfound (found : Lifetime) :
        (next (some found)).Honours (node.contract (fun _ => True) block) R :=
      hc (some found) fun _ _ => ⟨trivial, trivial⟩
    rw [Plan.run_lookup, Stop.landmarks_cons_site]
    cases hg : s.lifetimes.get? var.id with
    | none =>
      have hr := ih lifetime (hfound lifetime) (ht.declare lifetime)
      rw [State.declared_declare] at hr
      rw [h]
      exact hr
    | some found =>
      have hd : s.declared var.id = true := by simp [State.declared, Lifetimes.contains, hg]
      have hr := ih found (hfound found) ht.site
      rw [← Landmark.after_site hd] at hr
      exact hr
  | lookup hz h _ ih =>
    have hnone := hc none (fun _ hf => by cases hf)
    rw [h] at hnone
    exact absurd hnone hmay
  | report _ ih => rw [Plan.run_report, ih hc (ht.tell mood _), State.declared_tell]
  | hint _ ih => rw [Plan.run_hint, ih hc (ht.tell mood _), State.declared_tell]

/-! ### Nodes that may fail -/

namespace Rule

variable (visit : Visitor) (mood : Mood) (s : State)

private theorem settle_verdict (demand : Demand) (scope : Scope) (finding : Finding) :
    Ending.verdict ((Plan.settle demand scope finding).run visit mood s) = .ok s.declared := by
  unfold Plan.settle Plan.reportIf
  split
  · change Except.ok (State.declared (s.tell mood _)) = _
    rw [State.declared_tell]
  · rfl

private theorem localVar_verdict (var : Local) (span : Span) (demand : Demand) :
    Ending.verdict ((localVar var span demand).run visit mood s) =
      if s.declared var.id then .ok s.declared else .error (.undeclaredLocal var.name span) := by
  unfold localVar
  rw [Plan.run_lookup]
  cases hg : s.lifetimes.get? var.id with
  | none =>
    rw [if_neg (by simp [State.declared, Lifetimes.contains, hg])]
    rfl
  | some lifetime =>
    rw [if_pos (by simp [State.declared, Lifetimes.contains, hg])]
    dsimp only
    split <;> exact settle_verdict visit mood s demand _ _

private theorem thisRef_verdict (setting : Setting) (span : Span) (demand : Demand) :
    Ending.verdict ((thisRef setting span demand).run visit mood s) =
      if setting.method.receiver.isNone then .error (.missingReceiver setting.method.name span)
      else .ok s.declared := by
  unfold thisRef
  split
  · next hr =>
    rw [if_pos (by simp [hr])]
    rfl
  · next p hr =>
    rw [if_neg (by simp [hr])]
    unfold param
    split <;> exact settle_verdict visit mood s demand _ _

/-- A variable that is declared where it stands is on record from then on. -/
theorem outVar_verdict (setting : Setting) (var : Local) (ty : Ty) (span : Span)
    (demand : Demand) :
    Ending.verdict ((Rule.expr setting ⟨.outVar var, ty, span⟩ demand).run visit mood s) =
      .ok (Landmark.after s.declared [.site var.id]) := by
  unfold Rule.expr
  rw [Plan.run_lookup]
  have hknown (t : State) (h : t.declared var.id = true) :
      Ending.verdict ((localVar var span demand).run visit mood t) = .ok t.declared := by
    rw [localVar_verdict, if_pos h]
  cases hg : s.lifetimes.get? var.id with
  | none =>
    refine (hknown (s.declare var _) ?_).trans ?_
    · rw [State.declared_declare]
      simp [Landmark.after, Landmark.declares]
    · rw [State.declared_declare]
  | some found =>
    have hd : s.declared var.id = true := by simp [State.declared, Lifetimes.contains, hg]
    rw [Landmark.after_site hd]
    exact hknown s hd

end Rule

/-- A node whose rule does not fail has no offence of its own. -/
theorem Node.offence?_of_mayFail {node : Node} (h : node.mayFail = false) (method : Method)
    (declared : Nat → Bool) : node.offence? method declared = none := by
  unfold offence?
  split
  · cases h
  · cases h
  · rfl

namespace Walker

variable (w : Walker)

/-- What a rule finds out is what a scan does: the offence of the node, or the first one inside. -/
theorem compute_verdict {levels : Nat} (hw : w.Scans levels) (mood : Mood) {here : Standing}
    {node : Node} (demand : Demand) {s : State} (hl : here.level + levels = w.limit)
    (hready : s.Fresh here.path ∨
      Landmark.Settled w.setting.method w.limit s.declared (node.landmarks here)) :
    Ending.verdict (w.compute (levels + 1) mood here.path node demand s) =
      Landmark.scan w.setting.method w.limit s.declared (node.landmarks here) := by
  have hdepth : ¬ w.limit < here.level := by omega
  rw [compute_succ, Node.landmarks]
  simp only [Landmark.scan, Landmark.offence?, hdepth, if_false, Landmark.after_node]
  cases hn : node.mayFail with
  | false =>
    rw [Node.offence?_of_mayFail hn, node.inside_eq w.setting]
    have hc := Scope.closed_true demand.block
    have hp : w.setting.Allows (fun _ => True) node := fun _ _ => ⟨trivial, trivial⟩
    refine (Rule.node_tours w.setting node demand).run_verdict hw (here.inside node) hl hn
      (Rule.node_honours hc (fun _ => Scope.closed_true _) hp) ?_
    refine ⟨hready.imp (State.Ahead.start (node.stops_apart w.setting)) fun hs => ?_, ?_⟩
    · rw [Node.landmarks, ← List.singleton_append, node.inside_eq w.setting] at hs
      exact hs.of_append.2
    · exact fun _ hx => by cases hx
  | true =>
    unfold Node.mayFail at hn
    split at hn
    · next var ty span =>
      refine (Rule.localVar_verdict _ mood s var span demand).trans ?_
      simp only [Node.offence?]
      split <;> rfl
    · next ty span =>
      refine (Rule.thisRef_verdict _ mood s w.setting span demand).trans ?_
      simp only [Node.offence?]
      split <;> rfl
    · next var ty span => exact Rule.outVar_verdict _ mood s w.setting var ty span demand
    · cases hn

/-- A visit fails at the first offence among the landmarks of its node. -/
theorem scans (levels : Nat) : w.Scans levels := by
  induction levels with
  | zero =>
    intro mood here node demand s hl hready
    rcases w.verdict_visit 0 mood here.path node demand s with ⟨hf, hv⟩ | ⟨s', -, -, hv⟩
    · rw [hv]
      exact (hready.resolve_left hf).symm
    · have hdepth : w.limit < here.level := by omega
      rw [hv, compute_zero, Node.landmarks]
      simp only [Landmark.scan, Landmark.offence?, hdepth, if_true]
      rfl
  | succ levels ih =>
    intro mood here node demand s hl hready
    rcases w.verdict_visit (levels + 1) mood here.path node demand s with
      ⟨hf, hv⟩ | ⟨s', hs, hm, hv⟩
    · rw [hv]
      exact (hready.resolve_left hf).symm
    · have hd : s'.declared = s.declared := by simp only [State.declared, hs]
      rw [hv, ← hd]
      refine w.compute_verdict ih mood demand (by omega) ?_
      rw [hd]
      exact hready.imp_left fun hf => hf.of_memo hm

/-- The walk of a body fails at the first offence on its itinerary. -/
theorem walkBody_verdict (body : List Stmt) {s : State} (hs : s.Fresh []) :
    Ending.verdict (w.walkBody body s) =
      Landmark.scan w.setting.method w.limit s.declared
        (Stop.landmarks (.body w.setting.method) (Stop.body body)) := by
  have hn : (Node.stmt (.block body)).mayFail = false := rfl
  have hc : (Rule.stmts [] body .methodBody).Honours
      ((Node.stmt (.block body)).contract (fun _ => True) .currentMethod) fun _ => True :=
    Rule.stmts_honours [] body .methodBody rfl
  refine (Rule.body_tours body).run_verdict (w.scans w.limit) (.body w.setting.method)
    (Nat.zero_add _) hn hc ?_
  exact ⟨.inl (State.Ahead.start (Stop.body_apart body) hs), fun _ hx => by cases hx⟩

end Walker

/-- An analysis fails as the scan of its itinerary does. -/
theorem analyze_error_iff (body : Body) (options : Options) (failure : Failure) :
    (analyze body options).result = .error failure ↔
      Landmark.scan body.method options.maxDepth (fun _ => false) body.landmarks =
        .error failure := by
  let w : Walker := { setting := ⟨options.rules, body.method⟩, limit := options.maxDepth }
  have hd : w.initial.declared = fun _ => false := by
    funext id
    rw [State.declared, w.initial_empty.1]
    rfl
  have hv := w.walkBody_verdict body.stmts (w.initial_fresh [])
  rw [hd] at hv
  rw [body.landmarks_eq]
  change (w.analyze body.stmts).result = _ ↔ Landmark.scan w.setting.method w.limit _ _ = _
  rw [← hv]
  unfold Walker.analyze EStateM.run
  cases w.walkBody body.stmts w.initial with
  | ok a s => simp [Ending.verdict]
  | error cause s => simp [Ending.verdict]

/-- An analysis fails if and only if there is an offence on the itinerary of its body, and then with
the first one: a node with more than `maxDepth` nodes on the way to it, a receiver in a method that
has none, or a local without an earlier site. -/
theorem analyze_fails_at_first_offence (body : Body) (options : Options) :
    ((∃ failure, (analyze body options).result = .error failure) ↔
      ∃ before landmark rest, body.landmarks = before ++ landmark :: rest ∧
        landmark.offence? body.method options.maxDepth (fun id => before.any (·.declares id)) ≠
          none) ∧
    ∀ failure, (analyze body options).result = .error failure ↔
      ∃ before landmark rest, body.landmarks = before ++ landmark :: rest ∧
        landmark.offence? body.method options.maxDepth (fun id => before.any (·.declares id)) =
          some failure ∧
        ∀ earlier passed between, before = earlier ++ passed :: between →
          passed.offence? body.method options.maxDepth (fun id => earlier.any (·.declares id)) =
            none := by
  constructor
  · rw [exists_congr fun failure => analyze_error_iff body options failure]
    exact Landmark.exists_scan_error_iff
  · intro failure
    rw [analyze_error_iff]
    exact Landmark.scan_error_iff

end RefLifetime
