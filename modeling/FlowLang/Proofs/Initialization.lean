import FlowLang.Proofs.Correctness
import FlowLang.Proofs.Numbering
import FlowLang.Proofs.Typing
import FlowLang.Proofs.Writers

/-!
# Variables that are read without a value

The check looks at the text of a program, where a declaration may stand in a body that is not
executed. So a compiled program (`compile`) can read a variable that was given no value.

* `Tree.settled?`: the variables that can surely be read after a tree, on every path through it;
  nothing if one may be read too early. `Tree.evaluate_settled`: a tree that passes does not get
  stuck.
* `Tree.innerDeclared`: what is declared in the bodies of loops, conditions and choices.
  `Tree.WellTyped.settles`: if that is nothing, then a well-typed tree passes.
* **`compile_reads`**: a run fails at an empty slot (`UninitializedSlot`) iff the tree gets stuck at
  its variable, and it never does if the tree passes.
* `skippedDeclaration_fails`: a compiled program of which every long enough run fails.
-/

namespace FlowLang

/-! ## Paths -/

/-- The variables that can be read after an assignment. -/
def Access.assigned (access : Access) (x : String) (known : List String) : List String :=
  match access with
  | .declared => known
  | .given => x :: known

theorem Access.subset_assigned (access : Access) (x : String) (known : List String) :
    known ⊆ access.assigned x known := by
  cases access with
  | declared => exact List.Subset.refl known
  | given => exact List.subset_cons_self x known

namespace Tree

mutual

/-- The variables that can be read after the tree whatever path is taken, if those of `known` can be
read before it. Bodies may be passed over, and of a choice one body is taken. -/
def settled? (access : Access) (known : List String) : Tree → Option (List String)
  | mk .program ts => settledAll? access known ts
  | mk .block ts => settledAll? access known ts
  | mk (.name x) [] => if x ∈ known then some known else none
  | mk (.declare x _) [] => some (x :: known)
  | mk (.assign x) [e] => do
    let after ← settled? access known e
    return access.assigned x after
  | mk (.increment x) [e] => do
    let after ← settled? access known e
    return access.assigned x after
  | mk (.decrement x) [e] => do
    let after ← settled? access known e
    return access.assigned x after
  | mk .print [e] => settled? access known e
  | mk .negate [e] => settled? access known e
  | mk (.arithmetic _) [l, r] => do settled? access (← settled? access known l) r
  | mk (.compare _) [l, r] => do settled? access (← settled? access known l) r
  | mk (.connect _) [l, r] => do settled? access (← settled? access known l) r
  | mk .loop [c, b] => do
    let after ← settled? access known c
    let _ ← settled? access after b
    return after
  | mk .condition [c, b] => do
    let after ← settled? access known c
    let _ ← settled? access after b
    return after
  | mk .choice [c, b, e] => do
    let after ← settled? access known c
    let yes ← settled? access after b
    let no ← settled? access after e
    return yes.filter (· ∈ no)
  | _ => some known

/-- The same for trees one after the other. -/
def settledAll? (access : Access) (known : List String) : List Tree → Option (List String)
  | [] => some known
  | t :: ts => do settledAll? access (← settled? access known t) ts

end

variable {access : Access} {known after : List String}

theorem settled?_literal (l : Literal) : (mk l.node []).settled? access known = some known := by
  cases l <;> exact settled?.eq_def _ _ _

theorem settled?_text (s : String) : (mk (.text s) []).settled? access known = some known :=
  settled?.eq_def _ _ _

theorem settled?_binary (op : Binary) (l r : Tree) :
    (mk op.node [l, r]).settled? access known = l.settled? access known >>= r.settled? access := by
  cases op <;> exact settled?.eq_def _ _ _

theorem settled?_step (k : Step) (x : String) (e : Tree) :
    (mk (k.node x) [e]).settled? access known = (stepped k x e).settled? access known := by
  unfold stepped
  cases k with
  | up =>
    show (mk (.increment x) [e]).settled? access known = _
    rw [settled?, settled?, settled?]
    cases e.settled? access known <;> rfl
  | down =>
    show (mk (.decrement x) [e]).settled? access known = _
    rw [settled?, settled?, settled?]
    cases e.settled? access known <;> rfl

theorem settled?_guarded (g : Guard) (c b : Tree) : (mk g.node [c, b]).settled? access known = do
    let after ← c.settled? access known
    let _ ← b.settled? access after
    return after := by
  cases g <;> exact settled?.eq_def _ _ _

theorem settled?_irregular {n : Node} {ts : List Tree} {k : Nat} (hk : n.arity? = some k)
    (hl : ts.length ≠ k) : (mk n ts).settled? access known = some known := by
  rw [settled?]
  all_goals
    intros
    rename_i h
    cases h
    first
    | exact hl (Option.some.inj hk)
    | cases hk

theorem subset_settledAll? {ts : List Tree}
    (h : ∀ t ∈ ts, ∀ known after, t.settled? access known = some after → known ⊆ after)
    (hs : settledAll? access known ts = some after) : known ⊆ after := by
  induction ts generalizing known with
  | nil =>
    rw [settledAll?] at hs
    cases hs
    exact List.Subset.refl _
  | cons t ts ih =>
    rw [settledAll?] at hs
    obtain ⟨mid, ht, hs⟩ := Option.bind_eq_some_iff.mp hs
    exact List.Subset.trans (h t List.mem_cons_self known mid ht)
      (ih (fun u hu => h u (List.mem_cons_of_mem t hu)) hs)

/-- A variable that can be read stays so. -/
theorem subset_settled? (t : Tree) :
    ∀ known after, t.settled? access known = some after → known ⊆ after := by
  induction t using form_induct with
  | program ts ih => intro known after h; rw [settled?] at h; exact subset_settledAll? ih h
  | block ts ih => intro known after h; rw [settled?] at h; exact subset_settledAll? ih h
  | name x =>
    intro known after h
    rw [settled?] at h
    split at h <;> cases h
    exact List.Subset.refl _
  | literal l => intro known after h; rw [settled?_literal] at h; cases h; exact List.Subset.refl _
  | text s => intro known after h; rw [settled?_text] at h; cases h; exact List.Subset.refl _
  | declare x kind _ =>
    intro known after h
    rw [settled?] at h
    cases h
    exact List.subset_cons_self x known
  | assign x e ih =>
    intro known after h
    rw [settled?] at h
    obtain ⟨mid, he, h⟩ := Option.bind_eq_some_iff.mp h
    cases h
    exact List.Subset.trans (ih known mid he) (access.subset_assigned x mid)
  | step k x e ih => intro known after h; rw [settled?_step] at h; exact ih known after h
  | print e ih => intro known after h; rw [settled?] at h; exact ih known after h
  | binary op l r ihl ihr =>
    intro known after h
    rw [settled?_binary] at h
    obtain ⟨mid, hl, hr⟩ := Option.bind_eq_some_iff.mp h
    exact List.Subset.trans (ihl known mid hl) (ihr mid after hr)
  | negate e ih => intro known after h; rw [settled?] at h; exact ih known after h
  | guarded g c body ihc _ =>
    intro known after h
    rw [settled?_guarded] at h
    obtain ⟨mid, hc, h⟩ := Option.bind_eq_some_iff.mp h
    obtain ⟨_, _, h⟩ := Option.bind_eq_some_iff.mp h
    cases h
    exact ihc known _ hc
  | choice c yes no ihc ihy ihn =>
    intro known after h
    rw [settled?] at h
    obtain ⟨mid, hc, h⟩ := Option.bind_eq_some_iff.mp h
    obtain ⟨ky, hy, h⟩ := Option.bind_eq_some_iff.mp h
    obtain ⟨kn, hn, h⟩ := Option.bind_eq_some_iff.mp h
    cases h
    intro x hx
    have hmid := ihc known mid hc hx
    exact List.mem_filter.mpr ⟨ihy mid ky hy hmid, decide_eq_true (ihn mid kn hn hmid)⟩
  | irregular n ts k hk hl =>
    intro known after h
    rw [settled?_irregular hk hl] at h
    cases h
    exact List.Subset.refl _

end Tree

/-! ## Evaluation -/

/-- The variables can be read. -/
def Store.Knows (access : Access) (σ : Store) (known : List String) : Prop :=
  ∀ x ∈ known, access.look σ x ≠ none

theorem Access.look_ne_none {access : Access} {σ : Store} {x : String} :
    access.look σ x ≠ none ↔ (access = .declared → σ.declared x = true) ∧ σ.values x ≠ none := by
  cases access with
  | given => exact ⟨fun h => ⟨nofun, h⟩, fun h => h.2⟩
  | declared =>
    show (if σ.declared x then σ.values x else none) ≠ none ↔ _
    cases σ.declared x with
    | true => exact ⟨fun h => ⟨fun _ => rfl, h⟩, fun h => h.2⟩
    | false => exact ⟨fun h => absurd rfl h, fun h => absurd (h.1 rfl) Bool.false_ne_true⟩

namespace Eval

variable {α β : Type} {access : Access} {known mid after : List String}

/-- If the variables `known` can be read, then the step does not miss one, and the variables `after`
can be read after it. -/
structure Secures (access : Access) (known after : List String) (step : Eval α) : Prop where
  knows : ∀ σ a σ', σ.Knows access known → step σ = .ok a σ' → σ'.Knows access after
  present : ∀ σ x σ', σ.Knows access known → step σ ≠ .error (.absent x) σ'

theorem Secures.bind {x : Eval α} {f : α → Eval β} (hx : Secures access known mid x)
    (hf : ∀ a, Secures access mid after (f a)) : Secures access known after (x >>= f) := by
  constructor
  · intro σ b σ' hσ h
    obtain ⟨a, σ₁, h₁, h₂⟩ := bind_eq_ok.mp h
    exact (hf a).knows σ₁ b σ' (hx.knows σ a σ₁ hσ h₁) h₂
  · intro σ y σ' hσ h
    rw [bind_apply] at h
    cases hs : x σ with
    | error e σ₁ =>
      rw [hs] at h
      cases h
      exact hx.present σ y σ' hσ hs
    | ok a σ₁ =>
      rw [hs] at h
      exact (hf a).present σ₁ y σ' (hx.knows σ a σ₁ hσ hs) h

theorem Secures.mono {x : Eval α} (hx : Secures access known mid x) (h : after ⊆ mid) :
    Secures access known after x :=
  ⟨fun σ a σ' hσ he y hy => hx.knows σ a σ' hσ he y (h hy), hx.present⟩

theorem secures_pure (a : α) : Secures access known known (pure a) := by
  refine ⟨fun σ b σ' hσ h => ?_, fun σ x σ' _ h => by cases h⟩
  obtain ⟨-, rfl⟩ := pure_eq_ok.mp h
  exact hσ

theorem secures_nonsense : Secures access known after (throw .nonsense : Eval α) :=
  ⟨fun _ _ _ _ h => (by cases h), fun _ _ _ _ h => (by cases h)⟩

theorem secures_demand (o : Option α) : Secures access known known (demand o) := by
  cases o with
  | none => exact secures_nonsense
  | some a => exact secures_pure a

theorem secures_truth (d : Datum) : Secures access known known (truth d) := by
  cases d with
  | truth b => exact secures_pure b
  | number x => exact secures_nonsense
  | text s => exact secures_nonsense

theorem secures_lookUp {x : String} (hx : x ∈ known) :
    Secures access known known (lookUp access x) := by
  constructor
  · intro σ d σ' hσ h
    rw [lookUp_apply] at h
    cases hd : access.look σ x with
    | none => rw [hd] at h; cases h
    | some d' => rw [hd] at h; cases h; exact hσ
  · intro σ y σ' hσ h
    rw [lookUp_apply] at h
    cases hd : access.look σ x with
    | none => exact hσ x hx hd
    | some d' => rw [hd] at h; cases h

theorem secures_assign (x : String) (d : Datum) :
    Secures access known (access.assigned x known) (assign x d) := by
  refine ⟨fun σ u σ' hσ h => ?_, fun σ y σ' _ h => by cases h⟩
  cases h
  have hx : (if x = x then some d else σ.values x) ≠ none := by
    rw [if_pos rfl]
    exact Option.some_ne_none d
  have hkeep : ∀ y ∈ known,
      access.look { σ with values := fun y => if y = x then some d else σ.values y } y ≠ none := by
    intro y hy
    obtain ⟨hdecl, hval⟩ := Access.look_ne_none.mp (hσ y hy)
    refine Access.look_ne_none.mpr ⟨hdecl, ?_⟩
    by_cases hyx : y = x
    · rw [hyx]; exact hx
    · exact (if_neg hyx).trans_ne hval
  cases access with
  | declared => exact hkeep
  | given => exact List.forall_mem_cons.mpr ⟨hx, hkeep⟩

theorem secures_declare (x : String) (kind : Kind) :
    Secures access known (x :: known) (declare x kind) := by
  refine ⟨fun σ u σ' hσ h y hy => ?_, fun σ y σ' _ h => by cases h⟩
  cases h
  refine Access.look_ne_none.mpr ?_
  show (_ → (decide (y = x) || σ.declared y) = true) ∧
    (if y = x then some kind.initial else σ.values y) ≠ none
  by_cases hyx : y = x
  · rw [if_pos hyx, decide_eq_true hyx]
    exact ⟨fun _ => rfl, Option.some_ne_none _⟩
  · rw [if_neg hyx, decide_eq_false hyx]
    exact Access.look_ne_none.mp (hσ y ((List.mem_cons.mp hy).resolve_left hyx))

theorem secures_print (d : Datum) : Secures access known known (print d) :=
  (secures_demand d.line?).bind fun _ =>
    ⟨fun σ u σ' hσ h => (by cases h; exact hσ), fun σ y σ' _ h => (by cases h)⟩

theorem Secures.test {x : Eval (Option Datum)} (hx : Secures access known after x) :
    Secures access known after (Eval.test x) :=
  hx.bind fun o => (secures_demand o).bind secures_truth

theorem Secures.perform {x : Eval (Option Datum)} (hx : Secures access known after x) :
    Secures access known after (Eval.perform x) :=
  hx.bind fun _ => secures_pure ()

/-- Each round of a loop starts with the variables with which the first one does. -/
theorem Secures.repeatWhile {test : Eval Bool} {body : Eval Unit}
    (ht : Secures access known mid test) (hb : Secures access mid after body) (h : known ⊆ after)
    (n : Nat) : Secures access known mid (Eval.repeatWhile test body n) := by
  induction n with
  | zero => exact ⟨fun _ _ _ _ h => (by cases h), fun _ _ _ _ h => (by cases h)⟩
  | succ n ih =>
    refine ht.bind fun b => ?_
    cases b with
    | false => exact secures_pure ()
    | true => exact (hb.mono h).bind fun _ => ih

end Eval

namespace Tree

open Eval

variable {access : Access} {known after : List String} {rounds : Nat}

theorem secures_evaluateAll {ts : List Tree}
    (h : ∀ t ∈ ts, ∀ known after, t.settled? access known = some after →
      Secures access known after (t.evaluate access rounds)) (last : Option Datum)
    (hs : settledAll? access known ts = some after) :
    Secures access known after (evaluateAll access rounds last ts) := by
  induction ts generalizing known last with
  | nil =>
    rw [settledAll?] at hs
    cases hs
    rw [evaluateAll]
    exact secures_pure last
  | cons t ts ih =>
    rw [settledAll?] at hs
    obtain ⟨mid, ht, hs⟩ := Option.bind_eq_some_iff.mp hs
    rw [evaluateAll]
    exact (h t List.mem_cons_self known mid ht).bind fun v =>
      ih (fun u hu => h u (List.mem_cons_of_mem t hu)) v hs

/-- **A tree that reads only settled variables does not get stuck.** -/
theorem evaluate_settled (t : Tree) : ∀ known after, t.settled? access known = some after →
    Secures access known after (t.evaluate access rounds) := by
  induction t using form_induct with
  | program ts ih =>
    intro known after h
    rw [settled?] at h
    rw [evaluate]
    exact secures_evaluateAll ih none h
  | block ts ih =>
    intro known after h
    rw [settled?] at h
    rw [evaluate]
    exact secures_evaluateAll ih none h
  | name x =>
    intro known after h
    rw [settled?] at h
    split at h <;> cases h
    rename_i hx
    rw [evaluate]
    exact (secures_lookUp hx).bind fun _ => secures_pure _
  | literal l =>
    intro known after h
    rw [settled?_literal] at h
    cases h
    rw [evaluate_literal]
    exact secures_pure _
  | text s =>
    intro known after h
    rw [settled?_text] at h
    cases h
    rw [evaluate]
    exact secures_pure _
  | declare x kind _ =>
    intro known after h
    rw [settled?] at h
    cases h
    rw [evaluate]
    exact (secures_declare x kind).bind fun _ => secures_pure _
  | assign x e ih =>
    intro known after h
    rw [settled?] at h
    obtain ⟨mid, he, h⟩ := Option.bind_eq_some_iff.mp h
    cases h
    rw [evaluate]
    exact (ih known mid he).bind fun o => (secures_demand o).bind fun d =>
      (secures_assign x d).bind fun _ => secures_pure _
  | step k x e ih =>
    intro known after h
    rw [settled?_step] at h
    rw [evaluate_step]
    exact ih known after h
  | print e ih =>
    intro known after h
    rw [settled?] at h
    rw [evaluate]
    exact (ih known after h).bind fun o => (secures_demand o).bind fun d =>
      (secures_print d).bind fun _ => secures_pure _
  | binary op l r ihl ihr =>
    intro known after h
    rw [settled?_binary] at h
    obtain ⟨mid, hl, hr⟩ := Option.bind_eq_some_iff.mp h
    rw [evaluate_binary]
    exact (ihl known mid hl).bind fun o => (secures_demand o).bind fun x =>
      (ihr mid after hr).bind fun o' => (secures_demand o').bind fun y =>
        (secures_demand (op.compute? x y)).bind fun _ => secures_pure _
  | negate e ih =>
    intro known after h
    rw [settled?] at h
    rw [evaluate]
    exact (ih known after h).bind fun o => (secures_demand o).bind fun d =>
      (secures_truth d).bind fun _ => secures_pure _
  | guarded g c body ihc ihb =>
    intro known after h
    rw [settled?_guarded] at h
    obtain ⟨mid, hc, h⟩ := Option.bind_eq_some_iff.mp h
    obtain ⟨inside, hb, h⟩ := Option.bind_eq_some_iff.mp h
    cases h
    have hsub := body.subset_settled? after inside hb
    cases g with
    | loop =>
      show Secures access known after ((mk .loop [c, body]).evaluate access rounds)
      rw [evaluate]
      exact ((ihc known after hc).test.repeatWhile (ihb after inside hb).perform
        (List.Subset.trans (c.subset_settled? known after hc) hsub) rounds).bind
        fun _ => secures_pure _
    | condition =>
      show Secures access known after ((mk .condition [c, body]).evaluate access rounds)
      rw [evaluate]
      refine (ihc known after hc).test.bind fun b => ?_
      cases b with
      | false => exact secures_pure _
      | true => exact ((ihb after inside hb).perform.mono hsub).bind fun _ => secures_pure _
  | choice c yes no ihc ihy ihn =>
    intro known after h
    rw [settled?] at h
    obtain ⟨mid, hc, h⟩ := Option.bind_eq_some_iff.mp h
    obtain ⟨ky, hy, h⟩ := Option.bind_eq_some_iff.mp h
    obtain ⟨kn, hn, h⟩ := Option.bind_eq_some_iff.mp h
    cases h
    rw [evaluate]
    refine (ihc known mid hc).test.bind fun b => ?_
    cases b with
    | false =>
      exact ((ihn mid kn hn).perform.mono fun x hx =>
        of_decide_eq_true (List.mem_filter.mp hx).2).bind fun _ => secures_pure _
    | true =>
      exact ((ihy mid ky hy).perform.mono fun x hx => (List.mem_filter.mp hx).1).bind
        fun _ => secures_pure _
  | irregular n ts k hk hl =>
    intro known after h
    rw [evaluate_irregular hk hl]
    exact secures_nonsense

/-! ## Declarations outside of bodies -/

/-- The bodies of a loop, a condition or a choice. -/
def bodies : Tree → List Tree
  | mk .loop ts => ts.tail
  | mk .condition ts => ts.tail
  | mk .choice ts => ts.tail
  | _ => []

/-- The names that are declared in some body. -/
def innerDeclared (t : Tree) : List String := t.postorder.flatMap fun u => u.bodies.flatMap declared

theorem innerDeclared_mk (n : Node) (ts : List Tree) : (mk n ts).innerDeclared =
    ts.flatMap innerDeclared ++ (mk n ts).bodies.flatMap declared := by
  unfold innerDeclared
  rw [postorder, postorderAll_eq, List.flatMap_append, List.flatMap_assoc, List.flatMap_singleton]

end Tree

/-- The declared variables are among `known`. -/
def Context.Within (Γ : Context) (known : List String) : Prop :=
  ∀ x kind, Γ x = some kind → x ∈ known

theorem Context.Within.mono {Γ : Context} {known after : List String} (h : Γ.Within known)
    (hsub : known ⊆ after) : Γ.Within after :=
  fun x kind hx => hsub (h x kind hx)

namespace Tree

variable {Γ Γ' : Context}

/-- An expression reads declared variables only. -/
theorem HasType.settled {e : Tree} {ty : Ty} (h : HasType Γ e ty) (hk : Γ.Within known) :
    e.settled? access known = some known := by
  have binary : ∀ (op : Binary) (l r : Tree), l.settled? access known = some known →
      r.settled? access known = some known →
      (mk op.node [l, r]).settled? access known = some known := by
    intro op l r hl hr
    rw [settled?_binary, hl]
    exact hr
  induction h with
  | name hx => rw [settled?, if_pos (hk _ _ hx)]
  | integer n => exact settled?_literal (.integer n)
  | real x => exact settled?_literal (.real x)
  | text s => exact settled?_text s
  | arithmetic op _ _ ihl ihr => exact binary (.arithmetic op) _ _ ihl ihr
  | compare op _ _ ihl ihr => exact binary (.compare op) _ _ ihl ihr
  | connect op _ _ ihl ihr => exact binary (.connect op) _ _ ihl ihr
  | negate _ ih => rw [settled?]; exact ih

/-- A body without declarations leaves the kinds as they were. -/
theorem WellTyped.within {b : Tree} (h : WellTyped Γ b Γ') (hd : b.declared = [])
    (hk : Γ.Within known) : Γ'.Within known := by
  intro x kind hx
  rw [h.eq_of_not_declared (by rw [hd]; exact List.not_mem_nil)] at hx
  exact hk x kind hx

/-- The tree reads settled variables only, and what is declared after it is settled then. -/
def Settles (access : Access) (Γ : Context) (t : Tree) (Γ' : Context) : Prop := ∀ known,
  Γ.Within known → ∃ after, t.settled? access known = some after ∧ Γ'.Within after

theorem settles_assigned {n : Node} {x : String} {e : Tree} {ty : Ty} (he : HasType Γ e ty)
    (hn : ∀ known, (mk n [e]).settled? access known = do
      let after ← e.settled? access known
      return access.assigned x after) : Settles access Γ (mk n [e]) Γ := by
  intro known hk
  refine ⟨access.assigned x known, ?_, hk.mono (access.subset_assigned x known)⟩
  rw [hn, he.settled hk]
  rfl

theorem settles_guarded {c b : Tree} (g : Guard) (hc : HasType Γ c .truth) (hb : WellTyped Γ b Γ')
    (hin : (mk g.node [c, b]).innerDeclared = [])
    (ih : b.innerDeclared = [] → Settles access Γ b Γ') :
    Settles access Γ (mk g.node [c, b]) Γ' := by
  intro known hk
  obtain ⟨-, hd, hinb⟩ : c.innerDeclared = [] ∧ b.declared = [] ∧ b.innerDeclared = [] := by
    cases g <;> rw [innerDeclared_mk] at hin <;> simpa [bodies, Guard.node, and_comm] using hin
  obtain ⟨after, hafter, -⟩ := ih hinb known hk
  refine ⟨known, ?_, hb.within hd hk⟩
  rw [settled?_guarded, hc.settled hk]
  show (b.settled? access known >>= fun _ => some known) = _
  rw [hafter]
  rfl

/-- **If nothing is declared in a body, then the order of the text is that of execution**: in a
well-typed tree every variable that is read is settled. -/
theorem WellTyped.settles {t : Tree} (h : WellTyped Γ t Γ') (hin : t.innerDeclared = []) :
    Settles access Γ t Γ' := by
  induction h with
  | declare Γ x kind =>
    intro known hk
    refine ⟨x :: known, by rw [settled?], fun y kind' hy => ?_⟩
    by_cases hyx : y = x
    · rw [hyx]; exact List.mem_cons_self
    · rw [Context.declare, if_neg hyx] at hy
      exact List.mem_cons_of_mem x (hk y kind' hy)
  | assign hx he => exact settles_assigned he fun known => settled?.eq_def _ _ _
  | increment hx => exact settles_assigned (.name hx) fun known => settled?.eq_def _ _ _
  | decrement hx => exact settles_assigned (.name hx) fun known => settled?.eq_def _ _ _
  | print he => exact fun known hk => ⟨known, by rw [settled?, he.settled hk], hk⟩
  | loop hc hb ih => exact settles_guarded .loop hc hb hin ih
  | condition hc hb ih => exact settles_guarded .condition hc hb hin ih
  | @choice Γ Γ₁ Γ₂ c yes no hc hy hn ihy ihn =>
    intro known hk
    rw [innerDeclared_mk] at hin
    obtain ⟨⟨-, hiny, hinn⟩, hdy, hdn⟩ : (c.innerDeclared = [] ∧ yes.innerDeclared = [] ∧
        no.innerDeclared = []) ∧ yes.declared = [] ∧ no.declared = [] := by
      simpa [bodies, and_assoc] using hin
    have hk₁ := hy.within hdy hk
    obtain ⟨ky, hky, -⟩ := ihy hiny known hk
    obtain ⟨kn, hkn, -⟩ := ihn hinn known hk₁
    refine ⟨ky.filter (· ∈ kn), ?_, fun x kind hx => ?_⟩
    · rw [settled?, hc.settled hk]
      show (yes.settled? access known >>= fun ky => no.settled? access known >>= fun kn =>
        some (ky.filter (· ∈ kn))) = _
      rw [hky, hkn]
      rfl
    · have hx' := hn.within hdn hk₁ x kind hx
      exact List.mem_filter.mpr ⟨yes.subset_settled? known ky hky hx',
        decide_eq_true (no.subset_settled? known kn hkn hx')⟩
  | nothing Γ => exact fun known hk => ⟨known, by rw [settled?, settledAll?], hk⟩
  | @next Γ Γ₁ Γ₂ t ts h hs ih ihs =>
    intro known hk
    obtain ⟨hint, hints⟩ : t.innerDeclared = [] ∧ (mk .block ts).innerDeclared = [] := by
      rw [innerDeclared_mk] at hin ⊢
      simpa [bodies] using hin
    obtain ⟨mid, hmid, hk₁⟩ := ih hint known hk
    obtain ⟨after, hafter, hk₂⟩ := ihs hints mid hk₁
    refine ⟨after, ?_, hk₂⟩
    rw [settled?, settledAll?, hmid]
    rw [settled?] at hafter
    exact hafter
  | @program Γ Γ' t h ih =>
    intro known hk
    have hint : t.innerDeclared = [] := by
      rw [innerDeclared_mk] at hin
      simpa [bodies] using hin
    obtain ⟨after, hafter, hk'⟩ := ih hint known hk
    refine ⟨after, ?_, hk'⟩
    rw [settled?, settledAll?, hafter]
    show settledAll? access after [] = some after
    rw [settledAll?]

/-! ## Compiled programs -/

/-- A tree that reads settled variables only does not get stuck. -/
theorem not_getsStuck {t : Tree} (h : (t.settled? access []).isSome) (x o : String) :
    ¬t.GetsStuck access x o := by
  rintro ⟨rounds, σ, he, -⟩
  obtain ⟨after, hafter⟩ := Option.isSome_iff_exists.mp h
  exact (t.evaluate_settled [] after hafter).present .empty x σ (fun y hy => by cases hy) he

/-- A run that fails at an empty slot shows where the tree gets stuck. -/
theorem getsStuck_of_run {t : Tree} {m : Module} {limit i : Nat} (h : t.compile = .ok m)
    (hr : (m.run limit none).result = .error (.uninitializedSlot i)) :
    ∃ slot o, m.graph.slots[i]? = some slot ∧ t.GetsStuck .given slot.name o ∧
      (m.run limit none).output = o.toUTF8 := by
  obtain ⟨c, hstart, -⟩ := simulates_compiled h 0
  have hmore : ∀ k, m.run (max k limit) none = m.run limit none := fun k =>
    Module.run_of_le hstart (Nat.le_max_right k limit) (by rw [hr]; nofun)
  rcases outcomes h with ⟨_, rounds, v, σ, he, rfl⟩ | ⟨x, _, rounds, σ, he, rfl⟩ | hf
  · obtain ⟨k, hk⟩ := run_of_finished h he
    rw [← hmore k, hk _ (Nat.le_max_left k limit)] at hr
    cases hr
  · obtain ⟨k, j, slot, hslot, rfl, hk⟩ := run_of_absent h he
    rw [← hmore k, hk _ (Nat.le_max_left k limit)] at hr ⊢
    cases hr
    exact ⟨slot, σ.output, hslot, ⟨rounds, σ, he, rfl⟩, rfl⟩
  · obtain ⟨σ, he⟩ := hf limit
    obtain ⟨o, more, ho, -⟩ := (run_of_unfinished h he).2 limit (Nat.le_refl limit)
    rw [ho] at hr
    cases hr

/-- The same of a run into any writer. -/
theorem getsStuck_of_runInto {W : Type} [Writer W] {t : Tree} {m : Module} {limit i : Nat} {w : W}
    (h : t.compile = .ok m) (hr : (m.runInto limit w).result = .error (.uninitializedSlot i)) :
    ∃ slot o, m.graph.slots[i]? = some slot ∧ t.GetsStuck .given slot.name o ∧
      (Writer.Faithful W → (m.runInto limit w).output = Writer.written w ++ o.toUTF8) := by
  obtain ⟨hresult, houtput⟩ := Module.runInto_of_ne_full (by rw [hr]; nofun)
  obtain ⟨slot, o, hslot, hstuck, ho⟩ := getsStuck_of_run h (hresult.symm.trans hr)
  exact ⟨slot, o, hslot, hstuck, fun hf => ho ▸ houtput hf⟩

end Tree

/-- **What a compiled program reads.** A run fails at an empty slot, with any limit and any writer,
only if the tree gets stuck at the variable of that slot, and what a faithful writer has then taken
is what the tree has printed. If the tree gets stuck, then all long enough runs fail so, unless the
writer fails before. That never happens to a tree that reads only variables that are settled on
every path. If no declaration stands in the body of a loop, a condition or a choice, then the tree
is such a tree, and whatever it reads has been declared before.

The register from which values get their numbers must reach the values of the tree, which is so for
a 32-bit word if they are at most `2 ^ 32` (`Counter.reaches_word`). -/
theorem compile_reads {N W : Type} [Counter N] [Writer W] {source : String} {m : Module}
    (h : compile source N = .ok m) :
    ∃ t, parseSource source = .ok t ∧ (Counter.Reaches N t.valueCount →
      (∀ limit (w : W) i, (m.runInto limit w).result = .error (.uninitializedSlot i) →
        ∃ slot o, m.graph.slots[i]? = some slot ∧ t.GetsStuck .given slot.name o ∧
          (Writer.Faithful W → (m.runInto limit w).output = Writer.written w ++ o.toUTF8)) ∧
      (∀ x o, t.GetsStuck .given x o → ∃ k i slot, m.graph.slots[i]? = some slot ∧ slot.name = x ∧
        ∀ limit ≥ k, m.run limit none = ⟨.error (.uninitializedSlot i), o.toUTF8⟩ ∧
          ∀ w : W, (m.runInto limit w).result ∈
            [.error (.uninitializedSlot i), .error .outputFull]) ∧
      ((t.settled? .given []).isSome → ∀ limit (w : W) i,
        (m.runInto limit w).result ≠ .error (.uninitializedSlot i)) ∧
      (t.innerDeclared = [] → (∀ x o, ¬t.GetsStuck .declared x o) ∧ ∀ limit (w : W) i,
        (m.runInto limit w).result ≠ .error (.uninitializedSlot i))) := by
  obtain ⟨t, ht, hmN⟩ := except_bind_eq_ok.mp h
  refine ⟨t, ht, fun hn => ?_⟩
  have hm : t.compile = .ok m := (Tree.compile_eq_compile hn).symm.trans hmN
  have hsafe : (t.settled? .given []).isSome → ∀ limit (w : W) i,
      (m.runInto limit w).result ≠ .error (.uninitializedSlot i) := by
    intro hs limit w i hr
    obtain ⟨slot, o, -, hstuck, -⟩ := Tree.getsStuck_of_runInto hm hr
    exact Tree.not_getsStuck hs slot.name o hstuck
  refine ⟨fun limit w i => Tree.getsStuck_of_runInto hm, ?_, hsafe, fun hin => ?_⟩
  · rintro x _ ⟨rounds, σ, he, rfl⟩
    obtain ⟨k, i, slot, hslot, hx, hk⟩ := Tree.run_of_absent hm he
    refine ⟨k, i, slot, hslot, hx, fun limit hl => ⟨hk limit hl, fun w => ?_⟩⟩
    have hw := m.result_runInto limit w
    rw [hk limit hl] at hw
    rcases hw with hw | hw <;> simp [hw]
  · obtain ⟨-, Γ, hty⟩ := (parseSource_shape ht).compile_iff.mp ⟨m, hm⟩
    have hset : ∀ access, (t.settled? access []).isSome := by
      intro access
      have hsettles : Tree.Settles access .empty t Γ := hty.settles hin
      obtain ⟨after, hafter, -⟩ := hsettles [] nofun
      rw [hafter]
      rfl
    exact ⟨Tree.not_getsStuck (hset .declared), hsafe (hset .given)⟩

open FlowLang.Tree

/-- A declared text, which is assigned in a body and printed. -/
def Tree.declaredFirst : Tree :=
  mk .program [mk .block [mk (.declare "x" .text) [], mk .condition [never,
    mk .block [mk (.assign "x") [mk (.text "a") []]]], mk .print [mk (.name "x") []]]]

theorem declaredFirst_reads : ∃ m,
    compile "str x; if (1 > 2 && !(1 > 2)) \x7b x = \"a\"; \x7d print x;" UInt32 = .ok m ∧
      ∀ (W : Type) [Writer W] limit (w : W) i,
        (m.runInto limit w).result ≠ .error (.uninitializedSlot i) := by
  have ht : parseSource "str x; if (1 > 2 && !(1 > 2)) \x7b x = \"a\"; \x7d print x;" =
      .ok declaredFirst := by decide +kernel
  obtain ⟨m, hm⟩ := exists_of_isOk (x := declaredFirst.compile UInt32) (by decide +kernel)
  have hc : compile "str x; if (1 > 2 && !(1 > 2)) \x7b x = \"a\"; \x7d print x;" UInt32 = .ok m :=
    except_bind_eq_ok.mpr ⟨declaredFirst, ht, hm⟩
  have hn : Counter.Reaches UInt32 declaredFirst.valueCount :=
    Counter.reaches_word.mpr (by decide +kernel)
  refine ⟨m, hc, fun W _ => ?_⟩
  obtain ⟨t, ht', hreads⟩ := compile_reads (W := W) hc
  cases ht.symm.trans ht'
  exact ((hreads hn).2.2.2 (by decide +kernel)).2

/-- A text that is declared in a body which is passed over, and printed. -/
def Tree.skippedDeclaration : Tree :=
  mk .program [mk .block [mk .condition [never, mk .block [mk (.declare "x" .text) []]],
    mk .print [mk (.name "x") []]]]

/-- The check looks at the order of the text, so a compiled program may read a variable whose
declaration is passed over. -/
theorem skippedDeclaration_fails : ¬∀ source m, compile source = .ok m → ∀ limit capacity? i,
    (m.run limit capacity?).result ≠ .error (.uninitializedSlot i) := by
  intro h
  have ht : parseSource "if (1 > 2 && !(1 > 2)) \x7b str x; \x7d print x;" =
      .ok skippedDeclaration := by decide +kernel
  obtain ⟨m, hm⟩ := exists_of_isOk (x := skippedDeclaration.compile) (by decide +kernel)
  have hstuck : skippedDeclaration.evaluate .given 0 .empty = .error (.absent "x") .empty := by
    unfold skippedDeclaration
    rw [evaluate_program, evaluate_last, evaluate_next, bind_apply, evaluate_condition_never]
    rfl
  obtain ⟨k, i, slot, -, -, hk⟩ := run_of_absent hm hstuck
  have hne := h _ m (except_bind_eq_ok.mpr ⟨skippedDeclaration, ht, hm⟩) k none i
  rw [hk k (Nat.le_refl k)] at hne
  exact hne rfl

end FlowLang
