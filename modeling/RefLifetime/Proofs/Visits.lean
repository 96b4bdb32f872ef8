import Mathlib.Data.List.Nodup
import RefLifetime.Proofs.Contexts
import RefLifetime.Proofs.Run

/-!
# How often expressions are visited

The first visit of an expression reports and all later ones are quiet. An answer is computed at most
once per demand, and by regularity an expression meets at most two demands. The walk keeps this
because a part is visited in the mood of the whole at first and quietly later, and because a quiet
visit only meets expressions whose earlier answers are all remembered.
-/

namespace RefLifetime

/-- A visit of an expression, as it is entered in the journal. -/
structure Visit where
  path : Path
  demand : Demand
  quiet : Bool
  /-- The answer was remembered. -/
  recalled : Bool
  deriving DecidableEq, Repr

/-- The visit that an event is, if it is one. -/
def Event.visit? : Event → Option Visit
  | .visited path demand quiet recalled => some ⟨path, demand, quiet, recalled⟩
  | _ => none

/-- The first visit reports, and later ones do not. -/
def Visit.OnlyFirstReports : List Visit → Prop
  | [] => True
  | first :: later => first.quiet = false ∧ ∀ v ∈ later, v.quiet = true

namespace Journal

/-- The visits of expressions, in order. -/
def visits (j : Journal) : List Visit := j.events.toList.filterMap Event.visit?

/-- The visits of the expression at `path`, in order. -/
def visitsAt (j : Journal) (path : Path) : List Visit := j.visits.filter (·.path = path)

/-- The places and demands for which an answer was computed, in order. -/
def computed (j : Journal) : List (Path × Demand) :=
  (j.visits.filter (!·.recalled)).map fun v => (v.path, v.demand)

/-- An entry adds its visit, if it is one. -/
theorem visits_push (j : Journal) (event : Event) :
    (j.push event).visits = j.visits ++ event.visit?.toList := by
  simp only [visits, push, Array.toList_push, List.filterMap_append]
  cases h : event.visit? <;> simp [h]

private theorem mem_visitsAt {j : Journal} {path : Path} {v : Visit} :
    v ∈ j.visitsAt path ↔ v ∈ j.visits ∧ v.path = path := by
  simp [visitsAt]

/-- Answers are computed on the visits that could not be answered from memory. -/
theorem mem_computed {j : Journal} {path : Path} {demand : Demand} :
    (path, demand) ∈ j.computed ↔
      ∃ v ∈ j.visitsAt path, v.recalled = false ∧ v.demand = demand := by
  simp only [computed, List.mem_map, List.mem_filter, mem_visitsAt, Prod.mk.injEq]
  constructor
  · rintro ⟨v, ⟨hv, hr⟩, hp, hd⟩
    exact ⟨v, ⟨hv, hp⟩, by simpa using hr, hd⟩
  · rintro ⟨v, ⟨hv, hp⟩, hr, hd⟩
    exact ⟨v, ⟨hv, by simp [hr]⟩, hp, hd⟩

end Journal

/-- What is not found is no key. -/
theorem Memo.not_mem_of_get?_eq_none {memo : Memo} {path : Path} {demand : Demand}
    (h : memo.get? path demand = none) : (path, demand) ∉ memo.entries.map (·.1) := by
  rw [Memo.get?, List.lookup_eq_none_iff] at h
  intro hm
  obtain ⟨entry, he, hk⟩ := List.mem_map.mp hm
  have := h entry he
  simp [hk] at this

/-- Every key is found. -/
theorem Memo.exists_get?_of_mem {memo : Memo} {path : Path} {demand : Demand}
    (h : (path, demand) ∈ memo.entries.map (·.1)) :
    ∃ reading, memo.get? path demand = some reading := by
  cases hg : memo.get? path demand with
  | none => exact absurd h (Memo.not_mem_of_get?_eq_none hg)
  | some reading => exact ⟨reading, rfl⟩

namespace State

/-- The visits of the expression at `path` so far. -/
def visitsAt (s : State) (path : Path) : List Visit := s.journal.visitsAt path

private theorem visits_visited (s : State) (path : Path) (demand : Demand) (quiet recalled : Bool) :
    (s.note (.visited path demand quiet recalled)).journal.visits =
      s.journal.visits ++ [⟨path, demand, quiet, recalled⟩] :=
  s.journal.visits_push _

private theorem visitsAt_visited (s : State) (path key : Path) (demand : Demand)
    (quiet recalled : Bool) :
    (s.note (.visited path demand quiet recalled)).visitsAt key =
      s.visitsAt key ++ if key = path then [⟨path, demand, quiet, recalled⟩] else [] := by
  simp only [visitsAt, Journal.visitsAt, visits_visited, List.filter_append]
  by_cases h : key = path
  · simp [h]
  · simp [h, Ne.symm h]

private theorem computed_visited (s : State) (path : Path) (demand : Demand)
    (quiet recalled : Bool) :
    (s.note (.visited path demand quiet recalled)).journal.computed =
      s.journal.computed ++ if recalled then [] else [(path, demand)] := by
  simp only [Journal.computed, visits_visited, List.filter_append, List.map_append]
  cases recalled <;> simp

private theorem visits_tell (s : State) (mood : Mood) (event : Event) (h : event.visit? = none) :
    (s.tell mood event).journal.visits = s.journal.visits := by
  unfold tell
  split
  · rfl
  · simp [note, Journal.visits_push, h]

private theorem visits_declare (s : State) (var : Local) (lifetime : Lifetime) :
    (s.declare var lifetime).journal.visits = s.journal.visits := by
  change (s.journal.push (.declared var.name lifetime)).visits = _
  simp [Journal.visits_push, Event.visit?]

/-- Everything that has been done was done in order: only first visits report, nothing is computed
or remembered twice, and what is remembered was computed. -/
structure Orderly (s : State) : Prop where
  reports : ∀ path, Visit.OnlyFirstReports (s.visitsAt path)
  computed : s.journal.computed.Nodup
  distinct : (s.memo.entries.map (·.1)).Nodup
  filed : ∀ path demand reading, s.memo.get? path demand = some reading →
    (path, demand) ∈ s.journal.computed

namespace Orderly

variable {s s' : State} {path : Path} {demand : Demand}

private theorem congr (h : s.Orderly) (hv : s'.journal.visits = s.journal.visits)
    (hm : s'.memo = s.memo) : s'.Orderly := by
  have hc : s'.journal.computed = s.journal.computed := by simp only [Journal.computed, hv]
  have hat (path : Path) : s'.visitsAt path = s.visitsAt path := by
    simp only [visitsAt, Journal.visitsAt, hv]
  exact ⟨fun path => hat path ▸ h.reports path, hc ▸ h.computed, hm ▸ h.distinct,
    fun path demand reading hr => hc ▸ h.filed path demand reading (hm ▸ hr)⟩

/-- A visit is entered that reports if it is the first, and that is recalled if it was computed. -/
theorem visited (h : s.Orderly) {quiet recalled : Bool}
    (hq : quiet = false ↔ s.visitsAt path = [])
    (hr : recalled = false → (path, demand) ∉ s.journal.computed) :
    (s.note (.visited path demand quiet recalled)).Orderly := by
  have hcomputed := s.computed_visited path demand quiet recalled
  refine ⟨fun key => ?_, ?_, h.distinct, fun key asked reading hg => ?_⟩
  · rw [visitsAt_visited]
    by_cases hk : key = path
    · subst hk
      have hold := h.reports key
      cases hat : s.visitsAt key with
      | nil => simp [Visit.OnlyFirstReports, hq.mpr hat]
      | cons first later =>
        rw [hat] at hold
        have hquiet : quiet = true := by simpa [hat] using hq
        refine ⟨hold.1, fun v hv => ?_⟩
        rcases List.mem_append.mp hv with hv | hv
        · exact hold.2 v hv
        · simp only [if_true, List.mem_singleton] at hv
          rw [hv]
          exact hquiet
    · simpa [hk] using h.reports key
  · rw [hcomputed]
    cases recalled with
    | true => simpa using h.computed
    | false =>
      refine List.nodup_append.mpr ⟨h.computed, List.nodup_singleton _, fun a ha b hb hab => ?_⟩
      simp only [Bool.false_eq_true, if_false, List.mem_singleton] at hb
      exact hr rfl (hb ▸ hab ▸ ha)
  · rw [hcomputed]
    exact List.mem_append_left _ (h.filed key asked reading hg)

/-- An answer is remembered that was computed and not remembered. -/
theorem remember (h : s.Orderly) (hg : s.memo.get? path demand = none)
    (hc : (path, demand) ∈ s.journal.computed) (reading : Reading) :
    (s.remember path demand reading).Orderly := by
  refine ⟨h.reports, h.computed, ?_, fun key asked found hf => ?_⟩
  · exact List.nodup_cons.mpr ⟨Memo.not_mem_of_get?_eq_none hg, h.distinct⟩
  · simp only [State.remember, Memo.get?_insert] at hf
    split at hf
    · next hk =>
      cases hk
      exact hc
    · exact h.filed key asked found hf

end Orderly

/-- Nothing at `path` or below it was visited. -/
structure Untouched (path : Path) (s : State) : Prop where
  visits : ∀ q, path <+: q → s.visitsAt q = []
  memo : s.Fresh path

/-- What is remembered stays. -/
def Keeps (s s' : State) : Prop :=
  ∀ q demand reading, s.memo.get? q demand = some reading → s'.memo.get? q demand = some reading

private theorem Keeps.refl (s : State) : s.Keeps s := fun _ _ _ h => h

private theorem Keeps.trans {s t u : State} (h : s.Keeps t) (h' : t.Keeps u) : s.Keeps u :=
  fun q demand reading hr => h' q demand reading (h q demand reading hr)

/-- Remembering something new changes nothing else. -/
theorem keeps_remember {s : State} {path : Path} {demand : Demand}
    (h : s.memo.get? path demand = none) (reading : Reading) :
    s.Keeps (s.remember path demand reading) := by
  intro q asked found hf
  have hne : ¬ (q, asked) = (path, demand) := by
    rintro ⟨rfl, rfl⟩
    rw [h] at hf
    cases hf
  simpa only [State.remember, Memo.get?_insert, hne, if_false] using hf

/-- Nothing is visited or newly remembered except at `path` and below it. -/
structure Stays (path : Path) (s s' : State) : Prop where
  visits : ∀ q, ¬ path <+: q → s'.visitsAt q = s.visitsAt q
  memo : s.SameOutside path s'
  keeps : s.Keeps s'

end State

/-- The expression was visited, and all that it answered is remembered. -/
def Node.Filed (s : State) (path : Path) : Node → Prop
  | .stmt _ => True
  | .expr _ => s.visitsAt path ≠ [] ∧
      ∀ v ∈ s.visitsAt path, ∃ reading, s.memo.get? path v.demand = some reading

/-- Everything in the node was visited, and all that was answered is remembered. -/
def Node.Explored (setting : Setting) (s : State) : Nat → Path → Node → Prop
  | 0, _, _ => False
  | levels + 1, path, node =>
    node.Filed s path ∧
      ∀ p, .part p ∈ node.stops setting → Node.Explored setting s levels (path ++ p.route) p.node

/-- Of a whole that meets the demands `asked`, the part may be asked this. A value that is to be
stored somewhere has to reach as far as was answered for that place. -/
def Part.AskedOf (p : Part) (s : State) (path : Path) (asked : Demand → Prop) (demand : Demand) :
    Prop :=
  ∃ whole, asked whole ∧ demand.block = p.block whole.block ∧
    match p.asking with
    | .freely => demand.target = demand.block
    | .once f => demand = f whole
    | .into holder =>
      demand.mode = .value ∧ ∃ reading,
        s.memo.get? (path ++ holder) (.within .value whole.block) = some reading ∧
          demand.target = reading.scope

/-- All visits at `path` are visits of the node, and as `asked`. -/
def Node.Own (s : State) (asked : Demand → Prop) (path : Path) (node : Node) : Prop :=
  ∀ v ∈ s.visitsAt path, (∃ e, node = .expr e) ∧ asked v.demand

/-- All visits at and below `path` are visits of the node, as `asked`, and of its parts, as they may
be asked for then. -/
def Node.Bounded (setting : Setting) (s : State) : Nat → (Demand → Prop) → Path → Node → Prop
  | 0, asked, path, node => node.Own s asked path ∧ ∀ q, path <+: q → q ≠ path → s.visitsAt q = []
  | levels + 1, asked, path, node =>
    node.Own s asked path ∧
      (∀ q, path <+: q → q ≠ path →
        Stop.All (fun p => ¬ path ++ p.route <+: q) (node.stops setting) → s.visitsAt q = []) ∧
      ∀ p, .part p ∈ node.stops setting →
        Node.Bounded setting s levels (p.AskedOf s path asked) (path ++ p.route) p.node

section Frame

variable {setting : Setting} {s s' : State} {levels : Nat} {path : Path} {node : Node}

private theorem Part.AskedOf.mono {p : Part} {asked asked' : Demand → Prop} {demand : Demand}
    (h : p.AskedOf s path asked demand) (hk : s.Keeps s')
    (ha : ∀ demand, asked demand → asked' demand) : p.AskedOf s' path asked' demand := by
  obtain ⟨whole, hw, hb, hd⟩ := h
  refine ⟨whole, ha whole hw, hb, ?_⟩
  cases hp : p.asking with
  | freely => simpa only [hp] using hd
  | once f => simpa only [hp] using hd
  | into holder =>
    simp only [hp] at hd
    obtain ⟨hm, reading, hr, ht⟩ := hd
    exact ⟨hm, reading, hk _ _ _ hr, ht⟩

/-- Exploration is not undone elsewhere. -/
theorem Node.Explored.mono (h : node.Explored setting s levels path)
    (hv : ∀ q, path <+: q → s'.visitsAt q = s.visitsAt q) (hk : s.Keeps s') :
    node.Explored setting s' levels path := by
  induction levels generalizing path node with
  | zero => exact h
  | succ levels ih =>
    refine ⟨?_, fun p hp => ih (h.2 p hp) fun q hq => ?_⟩
    · cases node with
      | stmt st => trivial
      | expr e =>
        rw [Filed, hv path (List.prefix_refl path)]
        refine ⟨h.1.1, fun v hm => ?_⟩
        obtain ⟨reading, hr⟩ := h.1.2 v hm
        exact ⟨reading, hk _ _ _ hr⟩
    · exact hv q ((List.prefix_append path p.route).trans hq)

/-- The bound on visits depends on the visits made. -/
theorem Node.Bounded.mono {asked asked' : Demand → Prop}
    (h : node.Bounded setting s levels asked path)
    (hv : ∀ q, path <+: q → s'.visitsAt q = s.visitsAt q) (hk : s.Keeps s')
    (ha : ∀ demand, asked demand → asked' demand) : node.Bounded setting s' levels asked' path := by
  have hown : node.Own s' asked' path ↔ node.Own s asked' path := by
    simp only [Own, hv path (List.prefix_refl path)]
  induction levels generalizing path node asked asked' with
  | zero =>
    refine ⟨hown.mpr fun v hm => ⟨(h.1 v hm).1, ha _ (h.1 v hm).2⟩, fun q hq hne => ?_⟩
    rw [hv q hq]
    exact h.2 q hq hne
  | succ levels ih =>
    refine ⟨hown.mpr fun v hm => ⟨(h.1 v hm).1, ha _ (h.1 v hm).2⟩, fun q hq hne hp => ?_,
      fun p hp => ?_⟩
    · rw [hv q hq]
      exact h.2.1 q hq hne hp
    · have hinside (q : Path) (hq : path ++ p.route <+: q) : s'.visitsAt q = s.visitsAt q :=
        hv q ((List.prefix_append path p.route).trans hq)
      refine ih (h.2.2 p hp) hinside (fun demand hd => hd.mono hk ha) ?_
      simp only [Own, hinside _ (List.prefix_refl _)]

/-- Without visits there is nothing to bound. -/
theorem Node.bounded_of_none (asked : Demand → Prop) (h : ∀ q, path <+: q → s.visitsAt q = []) :
    node.Bounded setting s levels asked path := by
  have hown : node.Own s asked path := by
    intro v hv
    rw [h path (List.prefix_refl path)] at hv
    cases hv
  induction levels generalizing path node asked with
  | zero => exact ⟨hown, fun q hq _ => h q hq⟩
  | succ levels ih =>
    refine ⟨hown, fun q hq _ _ => h q hq, fun p hp => ?_⟩
    have hinside (q : Path) (hq : path ++ p.route <+: q) : s.visitsAt q = [] :=
      h q ((List.prefix_append path p.route).trans hq)
    refine ih _ hinside fun v hv => ?_
    rw [hinside _ (List.prefix_refl _)] at hv
    cases hv

end Frame

/-! ### Tours -/

namespace Walker

/-- What a visit leaves behind, also when it fails. -/
structure Charted (w : Walker) (levels : Nat) (asked : Demand → Prop) (path : Path) (node : Node)
    (s s' : State) : Prop where
  orderly : s'.Orderly
  stays : s.Stays path s'
  bounded : node.Bounded w.setting s' levels asked path

/-- A reporting visit may be made where nothing was visited, a quiet one where everything was. -/
def Admits (w : Walker) (levels : Nat) (quiet : Bool) (path : Path) (node : Node) (s : State) :
    Prop :=
  if quiet then node.Explored w.setting s levels path else s.Untouched path

/-- Visits that are admitted are charted. If they succeed, the node is explored and its answer is
remembered. -/
def Charts (w : Walker) (levels : Nat) : Prop :=
  ∀ mood path node demand (asked : Demand → Prop) s, asked demand → s.Orderly →
    node.Bounded w.setting s levels asked path → w.Admits levels mood.quiet path node s →
    Ending.Meets
      (fun scope s' => w.Charted levels asked path node s s' ∧
        node.Explored w.setting s' levels path ∧
        ∀ e, node = .expr e → ∃ reading, s'.memo.get? path demand = some reading ∧
          reading.scope = scope)
      (w.Charted levels asked path node s)
      (w.visit levels mood path node demand s)

/-- The part of the node at `path` was visited as the demands on the node allow. -/
def Bounds (w : Walker) (levels : Nat) (path : Path) (asked : Demand → Prop) (s : State)
    (p : Part) : Prop :=
  p.node.Bounded w.setting s levels (p.AskedOf s path asked) (path ++ p.route)

/-- What a tour of the stops leaves behind, also when it fails. -/
structure Traced (w : Walker) (levels : Nat) (path : Path) (asked : Demand → Prop)
    (stops : List Stop) (s s' : State) : Prop where
  orderly : s'.Orderly
  bounded : Stop.All (w.Bounds levels path asked s') stops
  visits : ∀ q, Stop.All (fun p => ¬ path ++ p.route <+: q) stops → s'.visitsAt q = s.visitsAt q
  memo : ∀ q demand, Stop.All (fun p => ¬ path ++ p.route <+: q) stops →
    s'.memo.get? q demand = s.memo.get? q demand
  keeps : s.Keeps s'

/-- What a tour leaves behind that succeeds: all that it has come by is explored. -/
structure Covered (w : Walker) (levels : Nat) (path : Path) (asked : Demand → Prop)
    (stops : List Stop) (seen : List Answer) (todo : List Stop) (s s' : State) : Prop where
  traced : w.Traced levels path asked stops s s'
  todo : Stop.All (fun p => p.node.Explored w.setting s' levels (path ++ p.route)) todo
  seen : ∀ x ∈ seen, x.part.node.Explored w.setting s' levels (path ++ x.part.route)

/-- What holds when a tour of the stops has come this far. -/
structure Touring (w : Walker) (levels : Nat) (quiet : Bool) (path : Path) (asked : Demand → Prop)
    (stops : List Stop) (seen : List Answer) (todo : List Stop) (s : State) : Prop where
  orderly : s.Orderly
  bounded : Stop.All (w.Bounds levels path asked s) stops
  seenMem : ∀ x ∈ seen, .part x.part ∈ stops
  explored : ∀ x ∈ seen, x.part.node.Explored w.setting s levels (path ++ x.part.route)
  answers : ∀ x ∈ seen, ∀ e, x.part.node = .expr e → ∃ reading,
    s.memo.get? (path ++ x.part.route) x.demand = some reading ∧ reading.scope = x.scope
  todoMem : ∀ p, .part p ∈ todo → .part p ∈ stops
  apart : todo.Pairwise Stop.Apart
  disjoint : ∀ x ∈ seen, ∀ p, .part p ∈ todo → p.route.Apart x.part.route
  ahead : Stop.All (fun p => w.Admits levels quiet (path ++ p.route) p.node s) todo

variable {w : Walker} {levels : Nat} {quiet : Bool} {path : Path} {asked : Demand → Prop}
  {stops : List Stop} {seen : List Answer} {todo : List Stop} {s s' s'' : State}

private theorem Traced.trans (h : w.Traced levels path asked stops s s')
    (h' : w.Traced levels path asked stops s' s'') : w.Traced levels path asked stops s s'' where
  orderly := h'.orderly
  bounded := h'.bounded
  visits q hq := (h'.visits q hq).trans (h.visits q hq)
  memo q demand hq := (h'.memo q demand hq).trans (h.memo q demand hq)
  keeps := h.keeps.trans h'.keeps

private theorem Covered.after (h : w.Covered levels path asked stops seen todo s' s'')
    (ht : w.Traced levels path asked stops s s') :
    w.Covered levels path asked stops seen todo s s'' :=
  ⟨ht.trans h.traced, h.todo, h.seen⟩

private theorem Covered.part {p : Part} {demand : Demand} {scope : Scope}
    (h : w.Covered levels path asked stops (⟨p, demand, scope⟩ :: seen) todo s s') :
    w.Covered levels path asked stops seen (.part p :: todo) s s' :=
  ⟨h.traced, h.todo.cons (h.seen _ List.mem_cons_self),
    fun x hx => h.seen x (List.mem_cons_of_mem _ hx)⟩

private theorem Covered.site {id : Nat} (h : w.Covered levels path asked stops seen todo s s') :
    w.Covered levels path asked stops seen (.site id :: todo) s s' :=
  ⟨h.traced, h.todo.cons_site, h.seen⟩

/-- A step that makes no visit and remembers nothing. -/
theorem Traced.of_eq (ho : s.Orderly) (hb : Stop.All (w.Bounds levels path asked s) stops)
    (hv : s'.journal.visits = s.journal.visits) (hm : s'.memo = s.memo) :
    w.Traced levels path asked stops s s' := by
  have hat (q : Path) : s'.visitsAt q = s.visitsAt q := by
    simp only [State.visitsAt, Journal.visitsAt, hv]
  have hk : s.Keeps s' := fun _ _ _ h => hm ▸ h
  refine ⟨ho.congr hv hm, fun p hp => ?_, fun q _ => hat q, fun q _ _ => by rw [hm], hk⟩
  exact (hb p hp).mono (fun q _ => hat q) hk fun demand hd => hd.mono hk fun _ h => h

/-- A visit of one of the parts. -/
theorem Traced.of_charted (hap : stops.Pairwise Stop.Apart) {p : Part} (hp : .part p ∈ stops)
    (hb : Stop.All (w.Bounds levels path asked s) stops)
    (hc : w.Charted levels (p.AskedOf s path asked) (path ++ p.route) p.node s s') :
    w.Traced levels path asked stops s s' where
  orderly := hc.orderly
  bounded := by
    intro q hq
    have hasked (demand : Demand) (hd : q.AskedOf s path asked demand) :
        q.AskedOf s' path asked demand := hd.mono hc.stays.keeps fun _ h => h
    rcases Stop.eq_or_apart hap hp hq with rfl | hapart
    · exact hc.bounded.mono (fun _ _ => rfl) (State.Keeps.refl s') hasked
    · refine (hb q hq).mono (fun r hr => hc.stays.visits r fun hpre => ?_) hc.stays.keeps hasked
      exact ((Path.apart_append_left path _ _).mpr hapart).excludes hpre hr
  visits q hq := hc.stays.visits q (hq p hp)
  memo q demand hq := hc.stays.memo q demand (hq p hp)
  keeps := hc.stays.keeps

/-- Whether a visit is admitted depends on what was done at its place and below. -/
theorem Admits.mono {q : Path} {node : Node} (h : w.Admits levels quiet q node s)
    (hv : ∀ r, q <+: r → s'.visitsAt r = s.visitsAt r)
    (hm : ∀ r demand, q <+: r → s'.memo.get? r demand = s.memo.get? r demand) (hk : s.Keeps s') :
    w.Admits levels quiet q node s' := by
  unfold Admits at h ⊢
  split at h
  · next hq =>
    rw [if_pos hq]
    exact h.mono hv hk
  · next hq =>
    rw [if_neg hq]
    refine ⟨fun r hr => ?_, fun r demand hr => ?_⟩
    · rw [hv r hr]
      exact h.visits r hr
    · rw [hm r demand hr]
      exact h.memo r demand hr

/-- A visit elsewhere makes no difference. -/
theorem Admits.of_stays {p q : Path} {node : Node} (h : w.Admits levels quiet q node s)
    (hs : s.Stays p s') (hq : p.Apart q) : w.Admits levels quiet q node s' :=
  h.mono (fun r hr => hs.visits r fun hp => hq.excludes hp hr)
    (fun r demand hr => hs.memo r demand fun hp => hq.excludes hp hr) hs.keeps

namespace Touring

/-- A tour begins where everything is still ahead. -/
theorem start (ho : s.Orderly) (hb : Stop.All (w.Bounds levels path asked s) stops)
    (hap : stops.Pairwise Stop.Apart)
    (ha : Stop.All (fun p => w.Admits levels quiet (path ++ p.route) p.node s) stops) :
    w.Touring levels quiet path asked stops [] stops s :=
  ⟨ho, hb, by simp, by simp, by simp, fun _ h => h, hap, by simp, ha⟩

/-- What the tour asks of a part is what the part may be asked. -/
theorem asks (h : w.Touring levels quiet path asked stops seen todo s) {whole demand : Demand}
    (hw : asked whole) {p : Part} (hp : p.Asks whole seen demand) :
    p.AskedOf s path asked demand := by
  obtain ⟨hb, hd⟩ := hp
  refine ⟨whole, hw, hb, ?_⟩
  cases hk : p.asking with
  | freely => simpa only [hk] using hd
  | once f => simpa only [hk] using hd
  | into holder =>
    simp only [hk] at hd
    obtain ⟨hm, x, hx, hr, ⟨e, he⟩, hdemand, ht⟩ := hd
    obtain ⟨reading, hg, hs⟩ := h.answers x hx e he
    rw [hr, hdemand] at hg
    exact ⟨hm, reading, hg, ht.trans hs.symm⟩

/-- Parts that were explored stay so when one part is visited and explored. -/
theorem explored_after (h : w.Touring levels quiet path asked stops seen todo s)
    (hap : stops.Pairwise Stop.Apart) {p : Part} (hp : .part p ∈ stops)
    (hs : s.Stays (path ++ p.route) s')
    (he : p.node.Explored w.setting s' levels (path ++ p.route)) :
    ∀ x ∈ seen, x.part.node.Explored w.setting s' levels (path ++ x.part.route) := by
  intro x hx
  rcases Stop.eq_or_apart hap hp (h.seenMem x hx) with rfl | hapart
  · exact he
  · refine (h.explored x hx).mono (fun q hq => hs.visits q fun hpre => ?_) hs.keeps
    exact ((Path.apart_append_left path _ _).mpr hapart).excludes hpre hq

/-- After the first visit of a part. -/
theorem first {p : Part} {demand : Demand} {scope : Scope}
    (h : w.Touring levels quiet path asked stops seen (.part p :: todo) s)
    (hap : stops.Pairwise Stop.Apart)
    (hc : w.Charted levels (p.AskedOf s path asked) (path ++ p.route) p.node s s')
    (he : p.node.Explored w.setting s' levels (path ++ p.route))
    (ha : ∀ e, p.node = .expr e → ∃ reading,
      s'.memo.get? (path ++ p.route) demand = some reading ∧ reading.scope = scope) :
    w.Touring levels quiet path asked stops (⟨p, demand, scope⟩ :: seen) todo s' := by
  have hp := h.todoMem p List.mem_cons_self
  have hpair := List.pairwise_cons.mp h.apart
  have ht := Traced.of_charted hap hp h.bounded hc
  refine ⟨ht.orderly, ht.bounded, ?_, ?_, ?_, ?_, hpair.2, ?_, ?_⟩
  · exact List.forall_mem_cons.mpr ⟨hp, h.seenMem⟩
  · exact List.forall_mem_cons.mpr ⟨he, h.explored_after hap hp hc.stays he⟩
  · intro x hx e hn
    rcases List.mem_cons.mp hx with rfl | hx
    · exact ha e hn
    · obtain ⟨reading, hg, hs⟩ := h.answers x hx e hn
      exact ⟨reading, hc.stays.keeps _ _ _ hg, hs⟩
  · exact fun q hq => h.todoMem q (List.mem_cons_of_mem _ hq)
  · intro x hx q hq
    rcases List.mem_cons.mp hx with rfl | hx
    · exact Path.Apart.symm (hpair.1 _ hq)
    · exact h.disjoint x hx q (List.mem_cons_of_mem _ hq)
  · intro q hq
    refine (h.ahead q (List.mem_cons_of_mem _ hq)).of_stays hc.stays ?_
    exact (Path.apart_append_left path _ _).mpr (hpair.1 _ hq)

/-- After another visit of a part that was seen. -/
theorem again {x : Answer} (h : w.Touring levels quiet path asked stops seen todo s)
    (hap : stops.Pairwise Stop.Apart) (hx : x ∈ seen)
    (hc : w.Charted levels (x.part.AskedOf s path asked) (path ++ x.part.route) x.part.node s s')
    (he : x.part.node.Explored w.setting s' levels (path ++ x.part.route)) :
    w.Touring levels quiet path asked stops seen todo s' := by
  have hp := h.seenMem x hx
  have ht := Traced.of_charted hap hp h.bounded hc
  refine ⟨ht.orderly, ht.bounded, h.seenMem, h.explored_after hap hp hc.stays he, ?_, h.todoMem,
    h.apart, h.disjoint, ?_⟩
  · intro y hy e hn
    obtain ⟨reading, hg, hs⟩ := h.answers y hy e hn
    exact ⟨reading, hc.stays.keeps _ _ _ hg, hs⟩
  · intro q hq
    refine (h.ahead q hq).of_stays hc.stays ((Path.apart_append_left path _ _).mpr ?_)
    exact (h.disjoint x hx q hq).symm

/-- After a step that makes no visit and remembers nothing. -/
theorem step (h : w.Touring levels quiet path asked stops seen todo s)
    (hv : s'.journal.visits = s.journal.visits) (hm : s'.memo = s.memo) :
    w.Touring levels quiet path asked stops seen todo s' := by
  have ht : w.Traced levels path asked stops s s' := .of_eq h.orderly h.bounded hv hm
  have hat (q : Path) : s'.visitsAt q = s.visitsAt q := by
    simp only [State.visitsAt, Journal.visitsAt, hv]
  refine ⟨ht.orderly, ht.bounded, h.seenMem, fun x hx => ?_, ?_, h.todoMem, h.apart, h.disjoint, ?_⟩
  · exact (h.explored x hx).mono (fun q _ => hat q) ht.keeps
  · rw [hm]
    exact h.answers
  · exact fun p hp => (h.ahead p hp).mono (fun q _ => hat q) (fun q _ _ => by rw [hm]) ht.keeps

/-- A site is passed. -/
theorem site {id : Nat} (h : w.Touring levels quiet path asked stops seen (.site id :: todo) s) :
    w.Touring levels quiet path asked stops seen todo s :=
  { h with
    todoMem := fun p hp => h.todoMem p (List.mem_cons_of_mem _ hp)
    apart := (List.pairwise_cons.mp h.apart).2
    disjoint := fun x hx p hp => h.disjoint x hx p (List.mem_cons_of_mem _ hp)
    ahead := fun p hp => h.ahead p (List.mem_cons_of_mem _ hp) }

end Touring

end Walker

/-- A tour is traced, and if it succeeds all that it comes by is explored, if visits are charted. -/
theorem Plan.Tours.run_charts {α : Type} {w : Walker} {levels : Nat} {path : Path} {mood : Mood}
    {asked : Demand → Prop} {stops : List Stop} (hap : stops.Pairwise Stop.Apart) {whole : Demand}
    (hw : asked whole) (ih : w.Charts levels) {hazard : Prop} {Q : α → Prop} {seen : List Answer}
    {todo : List Stop} {p : Plan α} (h : Tours whole hazard Q seen todo p) {s : State}
    (ht : w.Touring levels mood.quiet path asked stops seen todo s) :
    Ending.Meets
      (fun _ s' => w.Covered levels path asked stops seen todo s s')
      (w.Traced levels path asked stops s)
      (p.run (fun route part asked inner => w.visit levels inner (path ++ route) part asked)
        mood s) := by
  have hstep {seen : List Answer} {todo : List Stop} {s s' : State}
      (ht : w.Touring levels mood.quiet path asked stops seen todo s)
      (hv : s'.journal.visits = s.journal.visits) (hm : s'.memo = s.memo) :
      w.Traced levels path asked stops s s' := .of_eq ht.orderly ht.bounded hv hm
  induction h generalizing s with
  | done h => exact .ok ⟨hstep ht rfl rfl, Stop.all_nil, ht.explored⟩
  | fail hz => exact .error (hstep ht rfl rfl)
  | @first seen todo part demand inner next hq ha hn ih' =>
    -- The part takes over the mood of the whole, and the visit is admitted as that of the whole.
    have hp := ht.todoMem part List.mem_cons_self
    have hquiet : (inner.within mood).quiet = mood.quiet := by simp [Mood.within, hq.1]
    have hv := ih (inner.within mood) (path ++ part.route) part.node demand
      (part.AskedOf s path asked) s (ht.asks hw ha) ht.orderly (ht.bounded part hp)
      (hquiet ▸ ht.ahead part List.mem_cons_self)
    rw [run_visit]
    refine hv.andThen ?_ fun s₁ hc => .of_charted hap hp ht.bounded hc
    rintro scope s₁ ⟨hc, he, hanswer⟩
    have htraced := Walker.Traced.of_charted hap hp ht.bounded hc
    refine (ih' scope (ht.first hap hc he hanswer)).imp ?_ fun _ h => htraced.trans h
    exact fun _ s₂ h => (h.after htraced).part
  | @again seen todo part demand inner next hq hx hf hd hn ih' =>
    -- The visit is quiet, and the part was explored when it was seen.
    obtain ⟨x, hx, rfl⟩ := hx
    have hp := ht.seenMem x hx
    have hquiet : (inner.within mood).quiet = true := by simp [Mood.within, hq]
    have hasked : x.part.AskedOf s path asked demand := by
      refine ⟨whole, hw, by rw [hd]; rfl, ?_⟩
      simp only [hf.1, hd]
      rfl
    have hv := ih (inner.within mood) (path ++ x.part.route) x.part.node demand
      (x.part.AskedOf s path asked) s hasked ht.orderly (ht.bounded x.part hp)
      (by rw [Walker.Admits, if_pos hquiet]; exact ht.explored x hx)
    rw [run_visit]
    refine hv.andThen ?_ fun s₁ hc => .of_charted hap hp ht.bounded hc
    rintro scope s₁ ⟨hc, he, -⟩
    have htraced := Walker.Traced.of_charted hap hp ht.bounded hc
    refine (ih' scope (ht.again hap hx hc he)).imp ?_ fun _ h => htraced.trans h
    exact fun _ s₂ h => h.after htraced
  | @declare seen todo var lifetime next hz hn ih' =>
    have hv := s.visits_declare var lifetime
    have htraced := hstep ht.site hv rfl
    refine (ih' (ht.site.step hv rfl)).imp ?_ fun _ h => htraced.trans h
    exact fun _ _ h => (h.after htraced).site
  | @designate seen todo var lifetime next h hn ih' =>
    rw [run_lookup]
    cases hl : s.lifetimes.get? var.id with
    | none =>
      have hv := s.visits_declare var lifetime
      have htraced := hstep ht.site hv rfl
      rw [h]
      refine (ih' lifetime (ht.site.step hv rfl)).imp ?_ fun _ h => htraced.trans h
      exact fun _ _ h => (h.after htraced).site
    | some found => exact (ih' found ht.site).imp (fun _ _ h => h.site) fun _ h => h
  | @lookup seen todo id cause next hz h hn ih' =>
    rw [run_lookup]
    cases hl : s.lifetimes.get? id with
    | none =>
      rw [h]
      exact .error (hstep ht rfl rfl)
    | some found => exact ih' found ht
  | @report seen todo finding next hn ih' =>
    have hv := s.visits_tell mood (.reported (finding.inRegion mood.region)) rfl
    have htraced := hstep ht hv (s.memo_tell mood _)
    refine (ih' (ht.step hv (s.memo_tell mood _))).imp ?_ fun _ h => htraced.trans h
    exact fun _ _ h => h.after htraced
  | @hint seen todo id next hn ih' =>
    have hv := s.visits_tell mood (.hinted id) rfl
    have htraced := hstep ht hv (s.memo_tell mood _)
    refine (ih' (ht.step hv (s.memo_tell mood _))).imp ?_ fun _ h => htraced.trans h
    exact fun _ _ h => h.after htraced

/-! ### Visits -/

private theorem State.visitsAt_visited_of_ne (s : State) {path key : Path} (h : key ≠ path)
    (demand : Demand) (quiet recalled : Bool) :
    (s.note (.visited path demand quiet recalled)).visitsAt key = s.visitsAt key := by
  simp [State.visitsAt_visited, h]

private theorem State.stays_visited (s : State) (path : Path) (demand : Demand)
    (quiet recalled : Bool) : s.Stays path (s.note (.visited path demand quiet recalled)) := by
  refine ⟨fun q hq => s.visitsAt_visited_of_ne ?_ demand quiet recalled, fun _ _ _ => rfl,
    State.Keeps.refl s⟩
  rintro rfl
  exact hq (List.prefix_refl q)

private theorem State.Stays.trans {path : Path} {s t u : State} (h : s.Stays path t)
    (h' : t.Stays path u) : s.Stays path u where
  visits q hq := (h'.visits q hq).trans (h.visits q hq)
  memo q demand hq := (h'.memo q demand hq).trans (h.memo q demand hq)
  keeps := h.keeps.trans h'.keeps

/-- A place strictly inside is not the node's own. -/
theorem Path.ne_of_inside {path route q : Path} (hr : route ≠ []) (hq : path ++ route <+: q) :
    q ≠ path := by
  rintro rfl
  exact Path.not_prefix_self q hr hq

/-- A visit of the node as it may be asked for. -/
theorem Node.Bounded.visited {setting : Setting} {s : State} {levels : Nat}
    {asked : Demand → Prop} {path : Path} {e : Expr} {demand : Demand}
    (h : Node.Bounded setting s levels asked path (.expr e)) (hd : asked demand)
    (quiet recalled : Bool) :
    Node.Bounded setting (s.note (.visited path demand quiet recalled)) levels asked path
      (.expr e) := by
  have hne {q : Path} (hq : q ≠ path) := s.visitsAt_visited_of_ne hq demand quiet recalled
  have hown (hold : Node.Own s asked path (.expr e)) :
      Node.Own (s.note (.visited path demand quiet recalled)) asked path (.expr e) := by
    intro v hv
    rw [State.visitsAt_visited, if_pos rfl] at hv
    rcases List.mem_append.mp hv with hv | hv
    · exact hold v hv
    · rw [List.mem_singleton] at hv
      exact ⟨⟨e, rfl⟩, hv ▸ hd⟩
  cases levels with
  | zero => exact ⟨hown h.1, fun q hq hqne => (hne hqne).trans (h.2 q hq hqne)⟩
  | succ levels =>
    refine ⟨hown h.1, fun q hq hqne hp => (hne hqne).trans (h.2.1 q hq hqne hp), fun p hp => ?_⟩
    have hinside := Node.stops_inside setting (.expr e) p hp
    exact (h.2.2 p hp).mono (fun q hq => hne (Path.ne_of_inside hinside hq))
      (State.Keeps.refl s) fun demand hd => hd.mono (State.Keeps.refl s) fun _ h => h

/-- An expression is filed after a visit if it was before and the new answer is remembered. -/
theorem Node.filed_visited {s s' : State} {path : Path} {e : Expr} {new : Visit}
    (hv : s'.visitsAt path = s.visitsAt path ++ [new])
    (hold : ∀ v ∈ s.visitsAt path, ∃ reading, s.memo.get? path v.demand = some reading)
    (hk : s.Keeps s') (hnew : ∃ reading, s'.memo.get? path new.demand = some reading) :
    Node.Filed s' path (.expr e) := by
  refine ⟨by simp [hv], fun v hm => ?_⟩
  rw [hv] at hm
  rcases List.mem_append.mp hm with hm | hm
  · obtain ⟨reading, hg⟩ := hold v hm
    exact ⟨reading, hk _ _ _ hg⟩
  · rw [List.mem_singleton] at hm
    exact hm ▸ hnew

namespace Walker

variable {w : Walker} {levels : Nat} {quiet : Bool} {path : Path} {asked : Demand → Prop}
  {node : Node} {e : Expr} {demand : Demand} {s s' : State}

/-- A tour of all stops of a node does nothing at the node's own place. -/
theorem Traced.own (h : w.Traced levels path asked (node.stops w.setting) s s') :
    s'.visitsAt path = s.visitsAt path ∧
      ∀ demand, s'.memo.get? path demand = s.memo.get? path demand := by
  have hout : Stop.All (fun p => ¬ path ++ p.route <+: path) (node.stops w.setting) :=
    fun p hp => Path.not_prefix_self path (node.stops_inside w.setting p hp)
  exact ⟨h.visits path hout, fun demand => h.memo path demand hout⟩

private theorem Traced.charted (h : w.Traced levels path asked (node.stops w.setting) s s')
    (hb : node.Bounded w.setting s (levels + 1) asked path) :
    w.Charted (levels + 1) asked path node s s' := by
  have hout {q : Path} (hq : ¬ path <+: q) :
      Stop.All (fun p => ¬ path ++ p.route <+: q) (node.stops w.setting) :=
    fun p _ hp => hq ((List.prefix_append path p.route).trans hp)
  have hstays : s.Stays path s' :=
    ⟨fun q hq => h.visits q (hout hq), fun q demand hq => h.memo q demand (hout hq), h.keeps⟩
  refine ⟨h.orderly, hstays, ?_, fun q hq hne hp => ?_, h.bounded⟩
  · intro v hv
    rw [h.own.1] at hv
    exact hb.1 v hv
  · rw [h.visits q hp]
    exact hb.2.1 q hq hne hp

/-- If a visit of the whole is admitted, so are visits of its parts. -/
theorem Admits.part (h : w.Admits (levels + 1) quiet path node s) {p : Part}
    (hp : .part p ∈ node.stops w.setting) : w.Admits levels quiet (path ++ p.route) p.node s := by
  unfold Admits at h ⊢
  split at h
  · next hq =>
    rw [if_pos hq]
    exact h.2 p hp
  · next hq =>
    rw [if_neg hq]
    have hpre {q : Path} (hq : path ++ p.route <+: q) := (List.prefix_append path p.route).trans hq
    exact ⟨fun q hq => h.visits q (hpre hq), fun q demand hq => h.memo q demand (hpre hq)⟩

/-- A visit that is admitted reports exactly if it is the first. -/
theorem Admits.reports_iff (h : w.Admits levels quiet path (.expr e) s) :
    quiet = false ↔ s.visitsAt path = [] := by
  cases quiet with
  | false => simpa [Admits] using (h : s.Untouched path).visits path (List.prefix_refl path)
  | true =>
    have he : Node.Explored w.setting s levels path (.expr e) := h
    cases levels with
    | zero => exact he.elim
    | succ levels => simpa using he.1.1

/-- Whatever was answered before a visit that is admitted is remembered. -/
theorem Admits.filed (h : w.Admits levels quiet path (.expr e) s) :
    ∀ v ∈ s.visitsAt path, ∃ reading, s.memo.get? path v.demand = some reading := by
  cases quiet with
  | false =>
    intro v hv
    rw [(h : s.Untouched path).visits path (List.prefix_refl path)] at hv
    cases hv
  | true =>
    have he : Node.Explored w.setting s levels path (.expr e) := h
    cases levels with
    | zero => exact he.elim
    | succ levels => exact he.1.2

/-- If nothing is recalled for a visit that is admitted, then nothing was remembered or computed
for it. -/
theorem Admits.new (hw : w.memoizes = true) (h : w.Admits levels quiet path (.expr e) s)
    (hr : w.remembered s path demand quiet = none) :
    s.memo.get? path demand = none ∧ (path, demand) ∉ s.journal.computed := by
  have hnone : s.memo.get? path demand = none := by
    cases quiet with
    | false => exact (h : s.Untouched path).memo path demand (List.prefix_refl path)
    | true =>
      cases hg : s.memo.get? path demand with
      | none => rfl
      | some reading => simp [remembered, Memo.answer?, hw, hg] at hr
  refine ⟨hnone, fun hc => ?_⟩
  obtain ⟨v, hv, -, rfl⟩ := Journal.mem_computed.mp hc
  obtain ⟨reading, hg⟩ := h.filed v hv
  rw [hnone] at hg
  cases hg

/-- A visit that reports recalls nothing if it is admitted. -/
theorem Admits.quiet_of_recalled {scope : Scope} (h : w.Admits levels quiet path (.expr e) s)
    (hr : w.remembered s path demand quiet = some scope) :
    Node.Explored w.setting s levels path (.expr e) := by
  cases quiet with
  | true => exact h
  | false =>
    rw [w.remembered_fresh (h : s.Untouched path).memo] at hr
    cases hr

/-- The computation of an answer tours the parts of the node. -/
theorem compute_charts (ih : w.Charts levels) {mood : Mood} (hd : asked demand) (ho : s.Orderly)
    (hb : node.Bounded w.setting s (levels + 1) asked path)
    (ha : Stop.All (fun p => w.Admits levels mood.quiet (path ++ p.route) p.node s)
      (node.stops w.setting)) :
    Ending.Meets
      (fun _ s' =>
        w.Covered levels path asked (node.stops w.setting) [] (node.stops w.setting) s s')
      (w.Traced levels path asked (node.stops w.setting) s)
      (w.compute (levels + 1) mood path node demand s) := by
  have hap := node.stops_apart w.setting
  exact (Rule.node_tours w.setting node demand).run_charts hap hd ih (.start ho hb.2.2 hap ha)

/-- A visit of an expression whose answer is recalled. -/
theorem charts_recalled {mood : Mood} {scope : Scope} (hd : asked demand) (ho : s.Orderly)
    (hb : Node.Bounded w.setting s levels asked path (.expr e))
    (ha : w.Admits levels mood.quiet path (.expr e) s)
    (hr : w.remembered s path demand mood.quiet = some scope) :
    let s' := s.note (.visited path demand mood.quiet true)
    w.Charted levels asked path (.expr e) s s' ∧ Node.Explored w.setting s' levels path (.expr e) ∧
      ∃ reading, s'.memo.get? path demand = some reading ∧ reading.scope = scope := by
  intro s'
  obtain ⟨-, reading, hg, hs, -⟩ := w.remembered_eq_some hr
  have hc : w.Charted levels asked path (.expr e) s s' :=
    ⟨ho.visited ha.reports_iff (by simp), s.stays_visited path demand mood.quiet true,
      hb.visited hd mood.quiet true⟩
  refine ⟨hc, ?_, reading, hg, hs⟩
  have he := ha.quiet_of_recalled hr
  cases levels with
  | zero => exact he.elim
  | succ levels =>
    have hv := s.visitsAt_visited path path demand mood.quiet true
    rw [if_pos rfl] at hv
    refine ⟨Node.filed_visited hv ha.filed hc.stays.keeps ⟨reading, hg⟩, fun p hp => ?_⟩
    have hinside := Node.stops_inside w.setting (.expr e) p hp
    refine (he.2 p hp).mono (fun q hq => ?_) hc.stays.keeps
    exact s.visitsAt_visited_of_ne (Path.ne_of_inside hinside hq) demand mood.quiet true

/-- A visit of an expression whose answer was computed and is now remembered. -/
theorem charts_computed {mood : Mood} (hd : asked demand)
    (hb : Node.Bounded w.setting s (levels + 1) asked path (.expr e))
    (ha : w.Admits (levels + 1) mood.quiet path (.expr e) s)
    (hnew : s.memo.get? path demand = none ∧ (path, demand) ∉ s.journal.computed) (scope : Scope)
    (h : w.Covered levels path asked (e.stops w.setting) [] (e.stops w.setting)
      (s.note (.visited path demand mood.quiet false)) s') :
    let s'' := s'.remember path demand ⟨scope, mood.quiet⟩
    w.Charted (levels + 1) asked path (.expr e) s s'' ∧
      Node.Explored w.setting s'' (levels + 1) path (.expr e) ∧
      ∃ reading, s''.memo.get? path demand = some reading ∧ reading.scope = scope := by
  intro s''
  have htraced : w.Traced levels path asked (Node.stops w.setting (.expr e)) _ s' := h.traced
  have hc := htraced.charted (hb.visited hd mood.quiet false)
  have hnone : s'.memo.get? path demand = none := (htraced.own.2 demand).trans hnew.1
  have hv : s'.visitsAt path = s.visitsAt path ++ [⟨path, demand, mood.quiet, false⟩] := by
    rw [htraced.own.1, State.visitsAt_visited, if_pos rfl]
  have hcomputed : (path, demand) ∈ s'.journal.computed := by
    refine Journal.mem_computed.mpr ⟨⟨path, demand, mood.quiet, false⟩, ?_, rfl, rfl⟩
    change _ ∈ s'.visitsAt path
    simp [hv]
  have hkeeps : s'.Keeps s'' := State.keeps_remember hnone ⟨scope, mood.quiet⟩
  have hstays : s.Stays path s'' :=
    ((s.stays_visited path demand mood.quiet false).trans hc.stays).trans
      ⟨fun _ _ => rfl, s'.sameOutside_remember path demand _, hkeeps⟩
  have hget : s''.memo.get? path demand = some ⟨scope, mood.quiet⟩ := by
    simp [s'', State.remember, Memo.get?_insert]
  refine ⟨⟨hc.orderly.remember hnone hcomputed _, hstays, ?_⟩, ⟨?_, fun p hp => ?_⟩, _, hget, rfl⟩
  · exact hc.bounded.mono (fun _ _ => rfl) hkeeps fun _ h => h
  · exact Node.filed_visited hv ha.filed hstays.keeps ⟨_, hget⟩
  · exact (h.todo p hp).mono (fun _ _ => rfl) hkeeps

/-- Every visit that is admitted is charted. -/
theorem charts (hw : w.memoizes = true) (levels : Nat) : w.Charts levels := by
  induction levels with
  | zero =>
    intro mood path node demand asked s hd ho hb ha
    cases node with
    | stmt st =>
      rw [visit_stmt]
      exact .error ⟨ho, ⟨fun _ _ => rfl, fun _ _ _ => rfl, State.Keeps.refl s⟩, hb⟩
    | expr e =>
      cases hr : w.remembered s path demand mood.quiet with
      -- Recalling takes an earlier visit that succeeded, which is more than no levels allow.
      | some scope => exact (ha.quiet_of_recalled hr).elim
      | none =>
        rw [visit_computed w hr]
        refine .error ⟨ho.visited ha.reports_iff fun _ => (ha.new hw hr).2, ?_, ?_⟩
        · exact s.stays_visited path demand mood.quiet false
        · exact hb.visited hd mood.quiet false
  | succ levels ih =>
    intro mood path node demand asked s hd ho hb ha
    cases node with
    | stmt st =>
      rw [visit_stmt]
      refine (compute_charts ih hd ho hb fun p hp => ha.part hp).imp ?_ fun _ h => h.charted hb
      exact fun _ s' h => ⟨h.traced.charted hb, ⟨trivial, h.todo⟩, fun _ he => by cases he⟩
    | expr e =>
      cases hr : w.remembered s path demand mood.quiet with
      | some scope =>
        rw [visit_recalled w hr]
        obtain ⟨hc, he, hanswer⟩ := charts_recalled hd ho hb ha hr
        exact .ok ⟨hc, he, fun _ _ => hanswer⟩
      | none =>
        rw [visit_computed w hr]
        have hnew := ha.new hw hr
        have ho₁ : (s.note (.visited path demand mood.quiet false)).Orderly :=
          ho.visited ha.reports_iff fun _ => hnew.2
        have hb₁ := hb.visited hd mood.quiet false
        have hstays := s.stays_visited path demand mood.quiet false
        refine (compute_charts ih hd ho₁ hb₁ fun p hp => ?_).andThen ?_ ?_
        · have hinside := Node.stops_inside w.setting (.expr e) p hp
          refine (ha.part hp).mono (fun q hq => ?_) (fun _ _ _ => rfl) (State.Keeps.refl s)
          exact s.visitsAt_visited_of_ne (Path.ne_of_inside hinside hq) demand mood.quiet false
        · intro scope s' h
          obtain ⟨hc, he, hanswer⟩ := charts_computed hd hb ha hnew scope h
          exact .ok ⟨hc, he, fun _ _ => hanswer⟩
        · intro s' h
          have hc := h.charted hb₁
          exact ⟨hc.orderly, hstays.trans hc.stays, hc.bounded⟩

end Walker

end RefLifetime
