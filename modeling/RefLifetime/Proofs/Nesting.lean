import RefLifetime.Proofs.Keeping

/-!
# Blocks and the scopes of locals

`Body.nesting` is the largest number of blocks that are open around any point of a body, read off
the syntax. The walk enters one block after another from the method body on, and never more than
that (`Scope.nested`). So every scope that is recorded for a local is one that the rules know of, or
that of a block around some point of the body (`Scope.Proper`).
-/

namespace RefLifetime

/-! ### How deeply blocks are nested -/

mutual

/-- The largest number of blocks that a statement opens around any point inside it. -/
def Stmt.nesting : Stmt → Nat
  | .block body | .uncheckedBlock body => Stmt.listNesting body + 1
  | .declare _ | .eval _ | .ret _ | .yieldReturn _ | .throw _ | .break | .continue | .empty => 0
  | .ite _ whenTrue whenFalse => max whenTrue.nesting (Stmt.optionNesting whenFalse)
  | .whileLoop _ body | .doLoop _ body => body.nesting
  | .forLoop inits _ _ body => max (Stmt.listNesting inits) body.nesting + 1
  | .foreach _ _ body | .using _ body => body.nesting + 1
  | .switch _ sections => Section.listNesting sections + 1
  | .tryCatch body catches cleanup =>
    max (Stmt.listNesting body) (max (Catch.listNesting catches) (Stmt.cleanupNesting cleanup)) + 1
termination_by structural s => s

/-- The nesting of a statement that may be absent. -/
def Stmt.optionNesting : Option Stmt → Nat
  | none => 0
  | some s => s.nesting
termination_by structural s => s

/-- The nesting of a list of statements is that of the most nested one. -/
def Stmt.listNesting : List Stmt → Nat
  | [] => 0
  | s :: rest => max s.nesting (Stmt.listNesting rest)
termination_by structural body => body

/-- The nesting of the last part of a try statement, which may be absent. -/
def Stmt.cleanupNesting : Option (List Stmt) → Nat
  | none => 0
  | some body => Stmt.listNesting body
termination_by structural body => body

/-- The nesting inside the sections of a switch statement. -/
def Section.listNesting : List Section → Nat
  | [] => 0
  | ⟨_, _, body⟩ :: rest => max (Stmt.listNesting body) (Section.listNesting rest)
termination_by structural sections => sections

/-- The nesting inside the handlers of a try statement. -/
def Catch.listNesting : List Catch → Nat
  | [] => 0
  | ⟨_, _, body⟩ :: rest => max (Stmt.listNesting body) (Catch.listNesting rest)
termination_by structural catches => catches

end

/-- The nesting inside a node; expressions open no blocks. -/
def Node.nesting : Node → Nat
  | .expr _ => 0
  | .stmt s => s.nesting

/-- The largest number of blocks that are open around any point of a body. -/
def Body.nesting (body : Body) : Nat := Stmt.listNesting body.stmts

/-- The depth of a list that is that of its deepest member is a bound for all of them. -/
private theorem le_of_mem {α : Type} (depth : α → Nat) {listDepth : List α → Nat}
    (hcons : ∀ a rest, listDepth (a :: rest) = max (depth a) (listDepth rest)) {a : α} {l : List α}
    (h : a ∈ l) : depth a ≤ listDepth l := by
  induction l with
  | nil => cases h
  | cons first rest ih =>
    rw [hcons]
    rcases List.mem_cons.mp h with rfl | h
    · exact Nat.le_max_left _ _
    · exact Nat.le_trans (ih h) (Nat.le_max_right _ _)

private theorem Stmt.nesting_le_list {s : Stmt} {body : List Stmt} (h : s ∈ body) :
    s.nesting ≤ Stmt.listNesting body :=
  le_of_mem Stmt.nesting (fun _ _ => rfl) h

private theorem Section.nesting_le_list {s : Section} {sections : List Section} (h : s ∈ sections) :
    Stmt.listNesting s.body ≤ Section.listNesting sections := by
  refine le_of_mem (fun s => Stmt.listNesting s.body) ?_ h
  rintro ⟨labels, guard, body⟩ rest
  rfl

private theorem Catch.nesting_le_list {c : Catch} {catches : List Catch} (h : c ∈ catches) :
    Stmt.listNesting c.body ≤ Catch.listNesting catches := by
  refine le_of_mem (fun c => Stmt.listNesting c.body) ?_ h
  rintro ⟨var, filter, body⟩ rest
  rfl

/-- A node that opens a block has one around some point inside it. -/
theorem Node.nesting_pos {node : Node} (h : node.opensBlock = true) : 0 < node.nesting := by
  cases node with
  | expr e => cases h
  | stmt s =>
    cases s with
    | block | uncheckedBlock | forLoop | foreach | «using» | switch | tryCatch =>
      exact Nat.succ_pos _
    | declare | eval | ret | yieldReturn | throw | ite | whileLoop | doLoop | «break» | «continue»
    | empty => cases h

/-- The block of the part counts among the `limit` blocks of the whole. -/
def Part.NestedIn (limit : Nat) (p : Part) : Prop :=
  p.node.nesting + (if p.nested then 1 else 0) ≤ limit

namespace Stop

variable {limit : Nat}

private theorem nestedIn_expr {p : Part} {nested : Bool} (h : Inner nested p)
    (hl : nested = true → 0 < limit) : p.NestedIn limit := by
  obtain ⟨-, hn, e, he⟩ := h
  rw [Part.NestedIn, hn, he, Node.nesting]
  cases nested with
  | true => exact hl rfl
  | false => exact Nat.zero_le _

private theorem nestedIn_stmt {route : Path} {s : Stmt} {nested : Bool} {asking : Asking}
    (h : s.nesting + (if nested then 1 else 0) ≤ limit) :
    Part.NestedIn limit ⟨route, .stmt s, nested, asking⟩ := h

/-- The statements of a block that the whole opens. -/
theorem all_block {body : List Stmt} (h : Stmt.listNesting body < limit) (route : Path) :
    All (Part.NestedIn limit) (block route body) := by
  refine all_members (fun i s hs => all_part (nestedIn_stmt ?_)) 0
  exact Nat.le_trans (Nat.succ_le_succ (Stmt.nesting_le_list hs)) h

private theorem all_free {route : Path} (hr : route ≠ []) {e : Option Expr} {nested : Bool}
    (hl : nested = true → 0 < limit) :
    All (Part.NestedIn limit) (ofOption (fun e => [free route e nested]) e) :=
  all_ofOption (fun e => all_part (nestedIn_expr ⟨hr, rfl, e, rfl⟩ hl)) e

end Stop

/-- The parts of a statement are nested in it. -/
theorem Stmt.stops_nestedIn (setting : Setting) (s : Stmt) :
    Stop.All (Part.NestedIn s.nesting) (s.stops setting) := by
  have hexpr {route : Path} {limit : Nat} {asking : Asking} (hr : route ≠ []) (e : Expr) :
      Part.NestedIn limit ⟨route, .expr e, false, asking⟩ :=
    Stop.nestedIn_expr ⟨hr, rfl, e, rfl⟩ fun h => by cases h
  cases s with
  | block body | uncheckedBlock body => exact Stop.all_block (Nat.lt_succ_self _) []
  | declare d =>
    exact (Stop.all_free (by simp) fun h => by cases h).append Stop.all_nil.cons_site
  | eval value | yieldReturn value => exact Stop.all_part (hexpr (by simp) value)
  | ret value | throw value =>
    exact Stop.all_ofOption (fun e => Stop.all_part (hexpr (by simp) e)) value
  | ite condition whenTrue whenFalse =>
    refine .append (.cons (hexpr (by simp) condition) (Stop.all_part ?_)) ?_
    · exact Stop.nestedIn_stmt (Nat.le_max_left _ _)
    · cases whenFalse with
      | none => exact Stop.all_nil
      | some other => exact Stop.all_part (Stop.nestedIn_stmt (Nat.le_max_right _ _))
  | whileLoop condition body | doLoop condition body =>
    exact .cons (hexpr (by simp) condition) (Stop.all_part (Stop.nestedIn_stmt (Nat.le_refl _)))
  | forLoop inits condition increments body =>
    have hbody := Nat.le_max_right (Stmt.listNesting inits) body.nesting
    have hinits := Nat.le_max_left (Stmt.listNesting inits) body.nesting
    refine .append (Stop.all_members (fun i s hs => Stop.all_part (Stop.nestedIn_stmt ?_)) 0) ?_
    · exact Nat.succ_le_succ (Nat.le_trans (Stmt.nesting_le_list hs) hinits)
    · refine (Stop.all_free (by simp) fun _ => Nat.succ_pos _).append (.append ?_ ?_)
      · refine Stop.all_forEach (fun i e => Stop.all_part ?_) increments 0
        have hi : Stop.Inner true ⟨[.increment i], .expr e, true, .freely⟩ :=
          ⟨by simp, rfl, e, rfl⟩
        exact Stop.nestedIn_expr hi fun _ => Nat.succ_pos _
      · exact Stop.all_part (Stop.nestedIn_stmt (Nat.succ_le_succ hbody))
  | foreach var collection body =>
    refine .cons (hexpr (by simp) collection) (.cons_site (Stop.all_part ?_))
    exact Stop.nestedIn_stmt (Nat.le_refl _)
  | «using» resources body =>
    refine .append (Stop.all_forEach (fun i d => ?_) resources 0) (Stop.all_part ?_)
    · exact (Stop.all_free (by simp) fun _ => Nat.succ_pos _).append Stop.all_nil.cons_site
    · exact Stop.nestedIn_stmt (Nat.le_refl _)
  | switch governing sections =>
    refine .cons (hexpr (by simp) governing) (Stop.all_members (fun i s hs => ?_) 0)
    refine .append (Stop.all_forEach (fun j p => ?_) s.labels 0) ?_
    · refine (p.stops_loose [.arm i, .label j] true).imp fun _ h => ?_
      exact Stop.nestedIn_expr h.1 fun _ => Nat.succ_pos _
    · refine (Stop.all_free (by simp) fun _ => Nat.succ_pos _).append ?_
      exact Stop.all_block (Nat.lt_succ_of_le (Section.nesting_le_list hs)) [.arm i]
  | tryCatch body catches cleanup =>
    rw [Stmt.nesting]
    refine (Stop.all_block (by omega) [.body]).append (.append ?_ ?_)
    · refine Stop.all_members (fun i c hc => ?_) 0
      have hle := Catch.nesting_le_list hc
      refine .append (Stop.all_ofOption (fun _ => Stop.all_nil.cons_site) c.var) ?_
      refine (Stop.all_free (by simp) fun _ => Nat.succ_pos _).append ?_
      exact Stop.all_block (by omega) [.arm i]
    · cases cleanup with
      | none => exact Stop.all_nil
      | some final =>
        refine Stop.all_block ?_ [.cleanup]
        rw [Stmt.cleanupNesting]
        omega
  | «break» | «continue» | empty => exact Stop.all_nil

/-- The parts of a node are nested in it. -/
theorem Node.stops_nestedIn (setting : Setting) (node : Node) :
    Stop.All (Part.NestedIn node.nesting) (node.stops setting) := by
  cases node with
  | expr e =>
    exact (e.stops_inner setting).imp fun _ h => Stop.nestedIn_expr h fun hn => by cases hn
  | stmt s => exact s.stops_nestedIn setting

/-! ### The scopes of nested blocks -/

namespace Scope

/-- The scope of a block that is nested `k` levels below the method body. -/
def nested : Nat → Scope
  | 0 => currentMethod
  | k + 1 => (nested k).enterBlock

/-- Depths between the method body and `unused` are counted as levels of blocks. -/
theorem ofDepth_block {depth : Nat} (h : bodyDepth < depth) (h' : depth < maxDepth) :
    ofDepth depth = block (depth - bodyDepth).toUInt32 := by
  simp only [bodyDepth, maxDepth] at h h'
  have h₀ : ¬ depth = 0 := by omega
  have h₁ : ¬ depth = 1 := by omega
  have h₂ : ¬ depth = bodyDepth := by simp only [bodyDepth]; omega
  have h₃ : ¬ maxDepth ≤ depth := by simp only [maxDepth]; omega
  rw [ofDepth, if_neg h₀, if_neg h₁, if_neg h₂, if_neg h₃]

/-- Entering a block steps to the next level, as long as there is one. -/
theorem enterBlock_block {level : UInt32} {k : Nat} (h : level.toNat = min k (maxDepth - 3)) :
    ∃ next, (block level).enterBlock = block next ∧ next.toNat = min (k + 1) (maxDepth - 3) := by
  have hd : min ((block level).depth + 1) (maxDepth - 1) =
      bodyDepth + min (k + 1) (maxDepth - 3) := by
    simp only [depth, h, bodyDepth, maxDepth]
    omega
  refine ⟨(min (k + 1) (maxDepth - 3)).toUInt32, ?_, ?_⟩
  · change ofDepth (min ((block level).depth + 1) (maxDepth - 1)) = _
    rw [hd, ofDepth_block, Nat.add_sub_cancel_left]
    · simp only [bodyDepth, maxDepth]
      omega
    · simp only [bodyDepth, maxDepth]
      omega
  · refine UInt32.toNat_ofNat_of_lt' ?_
    simp only [maxDepth, UInt32.size]
    omega

/-- Nested blocks are counted from one, and the count stops one step above `unused`. -/
theorem nested_succ (k : Nat) :
    ∃ level, nested (k + 1) = block level ∧ level.toNat = min (k + 1) (maxDepth - 3) := by
  induction k with
  | zero => exact ⟨1, rfl, rfl⟩
  | succ k ih =>
    obtain ⟨level, hn, hl⟩ := ih
    obtain ⟨next, he, hnext⟩ := enterBlock_block hl
    exact ⟨next, by rw [nested, hn, he], hnext⟩

/-- The scopes that something in a body can have under the rules, if at most `nesting` blocks are
open around any point of the body. -/
def Proper (rules : Rules) (nesting : Nat) : Scope → Prop
  | callingMethod | currentMethod => True
  | returnOnly => rules = .updated
  | block level => 1 ≤ level.toNat ∧ level.toNat ≤ nesting
  | unused => False

/-- Whether a scope is proper can be read off its level. -/
instance (rules : Rules) (nesting : Nat) : DecidablePred (Proper rules nesting)
  | callingMethod | currentMethod => inferInstanceAs (Decidable True)
  | returnOnly => inferInstanceAs (Decidable (rules = .updated))
  | block level => inferInstanceAs (Decidable (1 ≤ level.toNat ∧ level.toNat ≤ nesting))
  | unused => inferInstanceAs (Decidable False)

variable {rules : Rules} {nesting : Nat}

private theorem proper_nested {k : Nat} (h : k ≤ nesting) : (nested k).Proper rules nesting := by
  cases k with
  | zero => trivial
  | succ k =>
    obtain ⟨level, hn, hl⟩ := nested_succ k
    rw [hn]
    -- The level may fall short of `k`, but neither exceeds it nor drops to zero.
    have hmax : 1 ≤ maxDepth - 3 := by decide
    exact ⟨by omega, by omega⟩

/-- The scopes that are there whatever comes in are proper. -/
theorem closed_proper {k : Nat} (h : k ≤ nesting) : Closed (Proper rules nesting) (nested k) :=
  ⟨trivial, trivial, proper_nested h⟩

end Scope

/-- The location of a parameter has a proper scope; only the updated rules make it return-only. -/
theorem Param.proper_refScope (p : Param) (rules : Rules) (nesting : Nat) :
    (p.refScope rules).Proper rules nesting := by
  unfold refScope
  split
  · trivial
  · cases rules <;> dsimp only <;> split <;> trivial

/-- The value of a parameter has a proper scope as well. -/
theorem Param.proper_valueScope (p : Param) (rules : Rules) (nesting : Nat) :
    (p.valueScope rules).Proper rules nesting := by
  unfold valueScope
  split
  · trivial
  · cases rules with
    | legacy =>
      rw [Rules.isUpdated, Bool.and_false]
      trivial
    | updated => split <;> trivial

/-! ### What is recorded -/

/-- A node is visited in the block that it stands in, and what is recorded is proper. -/
def Discipline.nesting (rules : Rules) (limit : Nat) : Discipline where
  asks node demand := ∃ k, demand.block = Scope.nested k ∧ k + node.nesting ≤ limit
  scopes := Scope.Proper rules limit
  lifetimes _ _ := True
  events
    | .declared _ lifetime => lifetime.ref.Proper rules limit ∧ lifetime.value.Proper rules limit
    | _ => True

/-- Walks keep to the blocks that there are. -/
theorem Walker.upholds_nesting (w : Walker) (limit : Nat) :
    w.Upholds (.nesting w.setting.rules limit) where
  closed node demand ha := by
    obtain ⟨k, hb, hk⟩ := ha
    rw [hb]
    exact Scope.closed_proper (by omega)
  inner node demand ha ho := by
    obtain ⟨k, hb, hk⟩ := ha
    -- The block that the node opens is counted in its own nesting.
    have hpos := Node.nesting_pos ho
    have hin : demand.enterBlock.block = Scope.nested (k + 1) := congrArg Scope.enterBlock hb
    rw [hin]
    exact Scope.closed_proper (by omega)
  allows _ _ _ p _ := ⟨p.proper_refScope _ limit, p.proper_valueScope _ limit⟩
  parts node demand ha p hp seen asked hasked := by
    obtain ⟨k, hb, hk⟩ := ha
    have hn := node.stops_nestedIn w.setting p hp
    have hblock := hasked.1
    rw [Part.NestedIn] at hn
    rw [Part.block, hb] at hblock
    cases hnested : p.nested with
    | true =>
      rw [hnested, if_pos rfl] at hn hblock
      exact ⟨k + 1, hblock, by omega⟩
    | false =>
      rw [hnested, if_neg Bool.false_ne_true] at hn hblock
      exact ⟨k, hblock, by omega⟩
  declared _ _ _ _ _ hd := ⟨trivial, hd.2.1⟩

/-- Only proper scopes are ever recorded. After an analysis that does not fail, the location and the
value of every local on record have the scope of the caller, of the method body or of a nested
block, which is numbered from one and no higher than blocks are nested in the body; under the
updated rules they may be return-only as well. The same holds of every record that was made on the
way, also if it was replaced later or the analysis failed. -/
theorem analyzeInto_records_proper_scopes (earlier : Diagnostics) (body : Body)
    (options : Options) :
    (∀ outcome, (analyzeInto earlier body options).1 = .ok outcome → ∀ id lifetime,
      outcome.lifetimes.get? id = some lifetime →
        lifetime.ref.Proper options.rules body.nesting ∧
          lifetime.value.Proper options.rules body.nesting) ∧
    ∀ name lifetime, .declared name lifetime ∈ (analyze body options).journal.events.toList →
      lifetime.ref.Proper options.rules body.nesting ∧
        lifetime.value.Proper options.rules body.nesting := by
  let w : Walker := { setting := ⟨options.rules, body.method⟩, limit := options.maxDepth }
  have hbody : ∀ st ∈ body.stmts,
      (Discipline.nesting options.rules body.nesting).asks (.stmt st) .methodBody := by
    intro st hst
    refine ⟨0, rfl, ?_⟩
    rw [Nat.zero_add]
    exact Stmt.nesting_le_list hst
  obtain ⟨hevents, hrecords⟩ := (w.upholds_nesting body.nesting).analyze hbody
  constructor
  · intro outcome ho id lifetime hl
    exact (hrecords outcome ho id lifetime hl).1
  · intro name lifetime hd
    exact hevents _ hd

/-- Two blocks are open around a local and around a reference to what the caller passed in. -/
theorem analyzeInto_records_proper_scopes_nested :
    let p : Param := { name := "p", ty := .int, passing := .byRef, span := default }
    let x : Local := { id := 0, name := "x", ty := .int, span := default }
    let r : Local := { id := 1, name := "r", ty := .int, passing := .byRef, span := default }
    let f : Method := { name := "f", params := [p], returnTy := .void, span := default }
    let inner : Stmt :=
      .block [.declare ⟨x, none⟩, .declare ⟨r, some ⟨.param p, .int, default⟩⟩]
    let body : Body := ⟨f, [.whileLoop ⟨.literal, .bool, default⟩ (.block [inner]), .block []]⟩
    body.nesting = 2 ∧ ∃ outcome, (analyzeInto {} body ⟨.updated, 16⟩).1 = .ok outcome ∧
      outcome.lifetimes.get? 0 = some ⟨.block 2, .callingMethod⟩ ∧
      outcome.lifetimes.get? 1 = some ⟨.returnOnly, .callingMethod⟩ ∧
      Scope.Proper .updated body.nesting (.block 2) ∧
      Scope.Proper .updated body.nesting .returnOnly := by
  intro p x r f inner body
  have hrun := (analyzeInto_records_proper_scopes {} body ⟨.updated, 16⟩).1
  refine ⟨rfl, _, rfl, rfl, rfl, ?_, ?_⟩
  · exact (hrun _ rfl 0 ⟨.block 2, .callingMethod⟩ rfl).1
  · exact (hrun _ rfl 1 ⟨.returnOnly, .callingMethod⟩ rfl).1

end RefLifetime
