import FlowLang.Proofs.Declared
import FlowLang.Proofs.Grammar
import FlowLang.Proofs.Survey

/-!
# Well-typed programs

The typing rules of the language. A program is read from its first statement to its last one, and a
declaration counts from where it stands, in whatever block that is.

* `Tree.HasType Γ e ty`: the expression has the type, if the variables have the kinds `Γ`.
* `Tree.WellTyped Γ t Γ'`: the statement is well typed after the declarations `Γ`, and `Γ'` are the
  declarations after it.

Headlines:
* `Tree.IsStatement.wellTyped` and `Tree.WellTyped.survey`: the survey of a statement finds nothing
  iff the statement is well typed.
* `Tree.WellTyped.check`: the check finds nothing in a well-typed tree that declares no name twice.
* **`Tree.compile_source_iff`**: a program is compiled (`compile_ast`) iff no name is declared twice
  and it is well typed.
-/

namespace FlowLang

namespace Tree

/-! ## The rules -/

/-- The expression has the type. -/
inductive HasType (Γ : Context) : Tree → Ty → Prop
  | name {x : String} {kind : Kind} (h : Γ x = some kind) :
      HasType Γ (mk (.name x) []) (Lower.typeOf kind)
  | integer (n : Int) : HasType Γ (mk (.integer n) []) .number
  | real (x : Binary64) : HasType Γ (mk (.real x) []) .number
  | text (s : String) : HasType Γ (mk (.text s) []) .pointer
  | arithmetic {l r : Tree} (op : ArithOp) (hl : HasType Γ l .number) (hr : HasType Γ r .number) :
      HasType Γ (mk (.arithmetic op) [l, r]) .number
  | compare {l r : Tree} (op : RelOp) (hl : HasType Γ l .number) (hr : HasType Γ r .number) :
      HasType Γ (mk (.compare op) [l, r]) .truth
  | connect {l r : Tree} (op : LogicalOp) (hl : HasType Γ l .truth) (hr : HasType Γ r .truth) :
      HasType Γ (mk (.connect op) [l, r]) .truth
  | negate {e : Tree} (h : HasType Γ e .truth) : HasType Γ (mk .negate [e]) .truth

/-- The statement is well typed after the declarations `Γ`, and leaves the declarations `Γ'`. What
is printed or assigned has the type of a kind of variables, so it is no truth value. -/
inductive WellTyped : Context → Tree → Context → Prop
  | declare (Γ : Context) (x : String) (kind : Kind) :
      WellTyped Γ (mk (.declare x kind) []) (Γ.declare x kind)
  | assign {Γ : Context} {x : String} {kind : Kind} {e : Tree} (hx : Γ x = some kind)
      (he : HasType Γ e (Lower.typeOf kind)) : WellTyped Γ (mk (.assign x) [e]) Γ
  | increment {Γ : Context} {x : String} (hx : Γ x = some .number) :
      WellTyped Γ (mk (.increment x) [mk (.name x) []]) Γ
  | decrement {Γ : Context} {x : String} (hx : Γ x = some .number) :
      WellTyped Γ (mk (.decrement x) [mk (.name x) []]) Γ
  | print {Γ : Context} {kind : Kind} {e : Tree} (he : HasType Γ e (Lower.typeOf kind)) :
      WellTyped Γ (mk .print [e]) Γ
  | loop {Γ Γ' : Context} {c body : Tree} (hc : HasType Γ c .truth) (hb : WellTyped Γ body Γ') :
      WellTyped Γ (mk .loop [c, body]) Γ'
  | condition {Γ Γ' : Context} {c body : Tree} (hc : HasType Γ c .truth)
      (hb : WellTyped Γ body Γ') : WellTyped Γ (mk .condition [c, body]) Γ'
  | choice {Γ Γ₁ Γ₂ : Context} {c yes no : Tree} (hc : HasType Γ c .truth)
      (hy : WellTyped Γ yes Γ₁) (hn : WellTyped Γ₁ no Γ₂) :
      WellTyped Γ (mk .choice [c, yes, no]) Γ₂
  | nothing (Γ : Context) : WellTyped Γ (mk .block []) Γ
  | next {Γ Γ₁ Γ₂ : Context} {t : Tree} {ts : List Tree} (h : WellTyped Γ t Γ₁)
      (hs : WellTyped Γ₁ (mk .block ts) Γ₂) : WellTyped Γ (mk .block (t :: ts)) Γ₂
  | program {Γ Γ' : Context} {t : Tree} (h : WellTyped Γ t Γ') : WellTyped Γ (mk .program [t]) Γ'

variable {Γ Γ' : Context}

theorem HasType.literal (l : Literal) : HasType Γ (mk l.node []) .number := by
  cases l with
  | real x => exact .real x
  | integer n => exact .integer n

theorem HasType.binary {l r : Tree} (op : Binary) (hl : HasType Γ l op.operand)
    (hr : HasType Γ r op.operand) : HasType Γ (mk op.node [l, r]) op.result := by
  cases op with
  | arithmetic op => exact .arithmetic op hl hr
  | compare op => exact .compare op hl hr
  | connect op => exact .connect op hl hr

theorem WellTyped.step {x : String} (k : Step) (hx : Γ x = some .number) :
    WellTyped Γ (mk (k.node x) [mk (.name x) []]) Γ := by
  cases k with
  | up => exact .increment hx
  | down => exact .decrement hx

theorem WellTyped.guarded {c body : Tree} (g : Guard) (hc : HasType Γ c .truth)
    (hb : WellTyped Γ body Γ') : WellTyped Γ (mk g.node [c, body]) Γ' := by
  cases g with
  | loop => exact .loop hc hb
  | condition => exact .condition hc hb

end Tree

/-! ## Steps of a survey -/

namespace Survey

variable {σ σ' : Findings}

theorem valueOf_eq_ok {t : Tree} {step : Survey (Option Ty)} {ty : Ty} :
    valueOf t step σ = .ok ty σ' ↔ step σ = .ok (some ty) σ' := by
  unfold valueOf
  rw [bind_eq_ok]
  constructor
  · rintro ⟨_ | ty', σ₁, h₁, h₂⟩ <;> cases h₂
    exact h₁
  · intro h
    exact ⟨some ty, σ', h, rfl⟩

theorem kindOf_eq_ok {x : String} {kind : Kind} :
    kindOf x σ = .ok kind σ' ↔ σ.kinds x = some kind ∧ σ = σ' := by
  unfold kindOf
  cases σ.kinds x <;> simp

theorem require_eq_ok {use : Use} {found expected : Ty} {u : Unit} :
    require use found expected σ = .ok u σ' ↔ found = expected ∧ σ = σ' := by
  unfold require
  split
  · rename_i h
    exact ⟨fun e => ⟨h, (pure_eq_ok.mp e).2.symm⟩, fun e => pure_eq_ok.mpr ⟨rfl, e.2.symm⟩⟩
  · rename_i h
    exact ⟨fun e => (by cases e), fun e => absurd e.1 h⟩

theorem store_eq_ok {x : String} {ty : Ty} {u : Unit} :
    store x ty σ = .ok u σ' ↔ ∃ kind, σ.kinds x = some kind ∧ ty = Lower.typeOf kind ∧ σ = σ' := by
  unfold store
  rw [bind_eq_ok]
  constructor
  · rintro ⟨kind, σ₁, hk, hr⟩
    obtain ⟨hx, rfl⟩ := kindOf_eq_ok.mp hk
    exact ⟨kind, hx, require_eq_ok.mp hr⟩
  · rintro ⟨kind, hx, hr⟩
    exact ⟨kind, σ, kindOf_eq_ok.mpr ⟨hx, rfl⟩, require_eq_ok.mpr hr⟩

theorem print_eq_ok {ty : Ty} {u : Unit} :
    print ty σ = .ok u σ' ↔ (∃ kind, ty = Lower.typeOf kind) ∧ σ = σ' := by
  unfold print
  cases ty with
  | number =>
    exact pure_eq_ok.trans ⟨fun h => ⟨⟨.number, rfl⟩, h.2.symm⟩, fun h => ⟨rfl, h.2.symm⟩⟩
  | pointer =>
    exact pure_eq_ok.trans ⟨fun h => ⟨⟨.text, rfl⟩, h.2.symm⟩, fun h => ⟨rfl, h.2.symm⟩⟩
  | truth =>
    refine ⟨fun h => (by cases h), ?_⟩
    rintro ⟨⟨kind, hk⟩, -⟩
    cases kind <;> cases hk

theorem binary_eq_ok {op : Binary} {lhs rhs ty : Ty} :
    binary op lhs rhs σ = .ok ty σ' ↔
      lhs = op.operand ∧ rhs = op.operand ∧ op.result = ty ∧ σ = σ' := by
  unfold binary
  rw [bind_eq_ok]
  constructor
  · rintro ⟨_, σ₁, h₁, h⟩
    obtain ⟨hl, rfl⟩ := require_eq_ok.mp h₁
    obtain ⟨_, σ₂, h₂, hp⟩ := bind_eq_ok.mp h
    obtain ⟨hr, rfl⟩ := require_eq_ok.mp h₂
    obtain ⟨hty, hσ⟩ := pure_eq_ok.mp hp
    exact ⟨hl, hr, hty.symm, hσ.symm⟩
  · rintro ⟨hl, hr, rfl, rfl⟩
    exact ⟨(), σ, require_eq_ok.mpr ⟨hl, rfl⟩, bind_eq_ok.mpr
      ⟨(), σ, require_eq_ok.mpr ⟨hr, rfl⟩, rfl⟩⟩

theorem negate_eq_ok {ty ty' : Ty} :
    negate ty σ = .ok ty' σ' ↔ ty = .truth ∧ .truth = ty' ∧ σ = σ' := by
  unfold negate
  rw [bind_eq_ok]
  constructor
  · rintro ⟨_, σ₁, h₁, h⟩
    obtain ⟨ht, rfl⟩ := require_eq_ok.mp h₁
    obtain ⟨hty, hσ⟩ := pure_eq_ok.mp h
    exact ⟨ht, hty.symm, hσ.symm⟩
  · rintro ⟨ht, rfl, rfl⟩
    exact ⟨(), σ, require_eq_ok.mpr ⟨ht, rfl⟩, rfl⟩

theorem condition_eq_ok {t : Tree} {step : Survey (Option Ty)} {u : Unit} :
    condition (valueOf t step) σ = .ok u σ' ↔ step σ = .ok (some .truth) σ' := by
  unfold condition
  rw [bind_eq_ok]
  constructor
  · rintro ⟨ty, σ₁, hv, hr⟩
    obtain ⟨rfl, rfl⟩ := require_eq_ok.mp hr
    exact valueOf_eq_ok.mp hv
  · intro h
    exact ⟨.truth, σ', valueOf_eq_ok.mpr h, require_eq_ok.mpr ⟨rfl, rfl⟩⟩

theorem attempt_of_ok {α : Type} {step : Survey α} {a : α} (h : step σ = .ok a σ') :
    attempt step σ = .ok (some a) σ' := by
  unfold attempt
  rw [h]

end Survey

namespace Tree

open Survey

variable {Γ Γ' : Context} {σ σ' : Findings}

/-! ## Survey and rules -/

/-- An expression that has a type passes the survey. -/
theorem HasType.survey {e : Tree} {ty : Ty} (h : HasType Γ e ty) (faults : List LoweringFault) :
    e.survey ⟨Γ, faults⟩ = .ok (some ty) ⟨Γ, faults⟩ := by
  have binary : ∀ (op : Binary) (l r : Tree),
      l.survey ⟨Γ, faults⟩ = .ok (some op.operand) ⟨Γ, faults⟩ →
      r.survey ⟨Γ, faults⟩ = .ok (some op.operand) ⟨Γ, faults⟩ →
      (mk op.node [l, r]).survey ⟨Γ, faults⟩ = .ok (some op.result) ⟨Γ, faults⟩ := by
    intro op l r hl hr
    rw [survey_binary]
    exact bind_eq_ok.mpr ⟨_, _, valueOf_eq_ok.mpr hl, bind_eq_ok.mpr ⟨_, _, valueOf_eq_ok.mpr hr,
      bind_eq_ok.mpr ⟨_, _, binary_eq_ok.mpr ⟨rfl, rfl, rfl, rfl⟩, rfl⟩⟩⟩
  induction h with
  | name h =>
    rw [Tree.survey]
    exact bind_eq_ok.mpr ⟨_, _, kindOf_eq_ok.mpr ⟨h, rfl⟩, rfl⟩
  | integer n => rw [Tree.survey]; rfl
  | real x => rw [Tree.survey]; rfl
  | text s => rw [Tree.survey]; rfl
  | arithmetic op _ _ ihl ihr => exact binary (.arithmetic op) _ _ ihl ihr
  | compare op _ _ ihl ihr => exact binary (.compare op) _ _ ihl ihr
  | connect op _ _ ihl ihr => exact binary (.connect op) _ _ ihl ihr
  | negate _ ih =>
    rw [Tree.survey]
    exact bind_eq_ok.mpr ⟨_, _, valueOf_eq_ok.mpr ih,
      bind_eq_ok.mpr ⟨_, _, negate_eq_ok.mpr ⟨rfl, rfl, rfl⟩, rfl⟩⟩

/-- An expression that passes the survey has a type. -/
theorem IsExpression.hasType {e : Tree} (h : e.IsExpression) {r : Option Ty}
    (hs : e.survey σ = .ok r σ') : σ = σ' ∧ ∃ ty, r = some ty ∧ HasType σ.kinds e ty := by
  induction h generalizing r σ' with
  | name x =>
    rw [Tree.survey] at hs
    obtain ⟨kind, σ₁, hk, hp⟩ := bind_eq_ok.mp hs
    obtain ⟨hx, rfl⟩ := kindOf_eq_ok.mp hk
    obtain ⟨rfl, hσ⟩ := pure_eq_ok.mp hp
    exact ⟨hσ.symm, _, rfl, .name hx⟩
  | literal l =>
    rw [survey_literal] at hs
    obtain ⟨rfl, hσ⟩ := pure_eq_ok.mp hs
    exact ⟨hσ.symm, _, rfl, .literal l⟩
  | text s =>
    rw [Tree.survey] at hs
    obtain ⟨rfl, hσ⟩ := pure_eq_ok.mp hs
    exact ⟨hσ.symm, _, rfl, .text s⟩
  | binary op _ _ ihl ihr =>
    rw [survey_binary] at hs
    obtain ⟨lhs, σ₁, hl, hs₁⟩ := bind_eq_ok.mp hs
    obtain ⟨rhs, σ₂, hr, hs₂⟩ := bind_eq_ok.mp hs₁
    obtain ⟨ty, σ₃, hb, hp⟩ := bind_eq_ok.mp hs₂
    obtain ⟨rfl, _, hlhs, tl⟩ := ihl (valueOf_eq_ok.mp hl)
    obtain ⟨rfl, _, hrhs, tr⟩ := ihr (valueOf_eq_ok.mp hr)
    obtain ⟨rfl, rfl, rfl, rfl⟩ := binary_eq_ok.mp hb
    cases hlhs
    cases hrhs
    obtain ⟨rfl, hσ⟩ := pure_eq_ok.mp hp
    exact ⟨hσ.symm, _, rfl, .binary op tl tr⟩
  | negate _ ih =>
    rw [Tree.survey] at hs
    obtain ⟨ty, σ₁, he, hs₁⟩ := bind_eq_ok.mp hs
    obtain ⟨ty', σ₂, hn, hp⟩ := bind_eq_ok.mp hs₁
    obtain ⟨rfl, _, hty, te⟩ := ih (valueOf_eq_ok.mp he)
    obtain ⟨rfl, rfl, rfl⟩ := negate_eq_ok.mp hn
    cases hty
    obtain ⟨rfl, hσ⟩ := pure_eq_ok.mp hp
    exact ⟨hσ.symm, _, rfl, .negate te⟩

/-- A well-typed statement passes the survey. -/
theorem WellTyped.survey {t : Tree} (h : WellTyped Γ t Γ') (faults : List LoweringFault) :
    t.survey ⟨Γ, faults⟩ = .ok none ⟨Γ', faults⟩ := by
  have step : ∀ (Γ : Context) (k : Step) (x : String), Γ x = some .number →
      (mk (k.node x) [mk (.name x) []]).survey ⟨Γ, faults⟩ = .ok none ⟨Γ, faults⟩ := by
    intro Γ k x hx
    have hsum : HasType Γ (mk (.arithmetic k.op) [mk (.name x) [], mk (.real .one) []]) .number :=
      .arithmetic k.op (.name hx) (.real .one)
    rw [survey_step]
    unfold stepped
    rw [Tree.survey]
    exact bind_eq_ok.mpr ⟨_, _, valueOf_eq_ok.mpr (hsum.survey faults),
      bind_eq_ok.mpr ⟨(), _, store_eq_ok.mpr ⟨.number, hx, rfl, rfl⟩, rfl⟩⟩
  have guarded : ∀ (Γ Γ' : Context) (g : Guard) (c body : Tree), HasType Γ c .truth →
      body.survey ⟨Γ, faults⟩ = .ok none ⟨Γ', faults⟩ →
      (mk g.node [c, body]).survey ⟨Γ, faults⟩ = .ok none ⟨Γ', faults⟩ := by
    intro Γ Γ' g c body hc hb
    rw [survey_guarded]
    exact bind_eq_ok.mpr ⟨some (), _, attempt_of_ok (condition_eq_ok.mpr (hc.survey faults)),
      bind_eq_ok.mpr ⟨_, _, attempt_of_ok hb, rfl⟩⟩
  induction h with
  | declare Γ x kind => rw [Tree.survey]; rfl
  | @assign Γ x kind e hx he =>
    rw [Tree.survey]
    exact bind_eq_ok.mpr ⟨_, _, valueOf_eq_ok.mpr (he.survey faults),
      bind_eq_ok.mpr ⟨(), _, store_eq_ok.mpr ⟨kind, hx, rfl, rfl⟩, rfl⟩⟩
  | increment hx => exact step _ .up _ hx
  | decrement hx => exact step _ .down _ hx
  | @print Γ kind e he =>
    rw [Tree.survey]
    exact bind_eq_ok.mpr ⟨_, _, valueOf_eq_ok.mpr (he.survey faults),
      bind_eq_ok.mpr ⟨(), _, print_eq_ok.mpr ⟨⟨kind, rfl⟩, rfl⟩, rfl⟩⟩
  | loop hc _ ih => exact guarded _ _ .loop _ _ hc ih
  | condition hc _ ih => exact guarded _ _ .condition _ _ hc ih
  | @choice Γ _ _ _ _ _ hc _ _ ihy ihn =>
    rw [Tree.survey]
    exact bind_eq_ok.mpr ⟨some (), _, attempt_of_ok (condition_eq_ok.mpr (hc.survey faults)),
      bind_eq_ok.mpr ⟨_, _, attempt_of_ok ihy, bind_eq_ok.mpr ⟨_, _, attempt_of_ok ihn, rfl⟩⟩⟩
  | nothing Γ => rw [Tree.survey, surveyAll]; rfl
  | next _ _ ih ihs =>
    rw [Tree.survey] at ihs ⊢
    rw [surveyAll]
    exact bind_eq_ok.mpr ⟨_, _, attempt_of_ok ih, ihs⟩
  | program _ ih =>
    rw [Tree.survey, surveyAll]
    exact bind_eq_ok.mpr ⟨_, _, attempt_of_ok ih, by rw [surveyAll]; rfl⟩

/-- A list of statements that passes the survey is well typed, if each statement is that does. -/
theorem wellTyped_block {ts : List Tree} (ih : ∀ t ∈ ts, ∀ σ r σ', t.survey σ = .ok r σ' →
      σ'.faults = σ.faults → WellTyped σ.kinds t σ'.kinds) {last r : Option Ty}
    (h : surveyAll last ts σ = .ok r σ') (hf : σ'.faults = σ.faults) :
    WellTyped σ.kinds (mk .block ts) σ'.kinds := by
  induction ts generalizing σ last with
  | nil =>
    rw [surveyAll] at h
    obtain ⟨-, rfl⟩ := pure_eq_ok.mp h
    exact .nothing _
  | cons t ts iht =>
    rw [surveyAll] at h
    obtain ⟨q, σ₁, h₁, h₂⟩ := bind_eq_ok.mp h
    have hf₁ := faults_eq (keeps_attempt t.survey_keeps)
      (keeps_surveyAll (fun u _ => u.survey_keeps) q.join) h₁ h₂ hf
    obtain ⟨ty, ht⟩ := Survey.attempt_faultless t.survey_keeps h₁ hf₁
    exact .next (ih t List.mem_cons_self σ ty σ₁ ht hf₁)
      (iht (fun u hu => ih u (List.mem_cons_of_mem t hu)) h₂ (hf.trans hf₁.symm))

/-- A statement that passes the survey is well typed. -/
theorem IsStatement.wellTyped {t : Tree} (h : t.IsStatement) : ∀ σ r σ', t.survey σ = .ok r σ' →
    σ'.faults = σ.faults → WellTyped σ.kinds t σ'.kinds := by
  -- a condition that was tried without fault has left everything as it was
  have condition : ∀ (c : Tree) (σ σ₁ : Findings) (q : Option Unit), c.IsExpression →
      attempt (Survey.condition (valueOf c c.survey)) σ = .ok q σ₁ → σ₁.faults = σ.faults →
      σ = σ₁ ∧ HasType σ.kinds c .truth := by
    intro c σ σ₁ q hc ha hf
    obtain ⟨u, hu⟩ :=
      Survey.attempt_faultless (keeps_condition (keeps_valueOf c c.survey_keeps)) ha hf
    obtain ⟨rfl, ty, hty, ht⟩ := hc.hasType (condition_eq_ok.mp hu)
    cases hty
    exact ⟨rfl, ht⟩
  induction h with
  | declare x kind =>
    intro σ r σ' h _
    rw [Tree.survey] at h
    cases h
    exact .declare _ x kind
  | assign x he =>
    intro σ r σ' h _
    rw [Tree.survey] at h
    obtain ⟨ty, σ₁, hv, h₁⟩ := bind_eq_ok.mp h
    obtain ⟨_, σ₂, hs, hp⟩ := bind_eq_ok.mp h₁
    obtain ⟨rfl, _, hty, ht⟩ := he.hasType (valueOf_eq_ok.mp hv)
    obtain ⟨kind, hx, rfl, rfl⟩ := store_eq_ok.mp hs
    cases hty
    obtain ⟨-, rfl⟩ := pure_eq_ok.mp hp
    exact .assign hx ht
  | step k x =>
    intro σ r σ' h _
    rw [survey_step] at h
    unfold stepped at h
    rw [Tree.survey] at h
    obtain ⟨ty, σ₁, hv, h₁⟩ := bind_eq_ok.mp h
    obtain ⟨_, σ₂, hs, hp⟩ := bind_eq_ok.mp h₁
    have hsum : (mk (.arithmetic k.op) [mk (.name x) [], mk (.real .one) []]).IsExpression :=
      .binary (.arithmetic k.op) (.name x) (.literal (.real .one))
    obtain ⟨rfl, _, hty, ht⟩ := hsum.hasType (valueOf_eq_ok.mp hv)
    cases hty
    obtain ⟨kind, hx, hk, rfl⟩ := store_eq_ok.mp hs
    obtain ⟨-, rfl⟩ := pure_eq_ok.mp hp
    cases ht
    cases kind with
    | number => exact .step k hx
    | text => cases hk
  | print he =>
    intro σ r σ' h _
    rw [Tree.survey] at h
    obtain ⟨ty, σ₁, hv, h₁⟩ := bind_eq_ok.mp h
    obtain ⟨_, σ₂, hs, hp⟩ := bind_eq_ok.mp h₁
    obtain ⟨rfl, _, hty, ht⟩ := he.hasType (valueOf_eq_ok.mp hv)
    obtain ⟨⟨kind, rfl⟩, rfl⟩ := print_eq_ok.mp hs
    cases hty
    obtain ⟨-, rfl⟩ := pure_eq_ok.mp hp
    exact .print ht
  | @guarded c body g hc _ ih =>
    intro σ r σ' h hf
    rw [survey_guarded] at h
    obtain ⟨q, σ₁, h₁, h'⟩ := bind_eq_ok.mp h
    obtain ⟨q', σ₂, h₂, hp⟩ := bind_eq_ok.mp h'
    obtain ⟨-, rfl⟩ := pure_eq_ok.mp hp
    have kc := keeps_attempt (keeps_condition (keeps_valueOf c c.survey_keeps))
    have hf₁ := faults_eq kc (keeps_attempt (survey_keeps _)) h₁ h₂ hf
    obtain ⟨rfl, ht⟩ := condition c _ _ _ hc h₁ hf₁
    obtain ⟨ty, hb⟩ := Survey.attempt_faultless (survey_keeps _) h₂ hf
    rw [Tree.survey] at hb
    exact .guarded g ht (wellTyped_block ih hb hf)
  | @choice c yes no hc _ _ ihy ihn =>
    intro σ r σ' h hf
    rw [Tree.survey] at h
    obtain ⟨q, σ₁, h₁, h'⟩ := bind_eq_ok.mp h
    obtain ⟨q', σ₂, h₂, h''⟩ := bind_eq_ok.mp h'
    obtain ⟨q'', σ₃, h₃, hp⟩ := bind_eq_ok.mp h''
    obtain ⟨-, rfl⟩ := pure_eq_ok.mp hp
    have kc := keeps_attempt (keeps_condition (keeps_valueOf c c.survey_keeps))
    have ky := keeps_attempt (survey_keeps (mk .block yes))
    have kn := keeps_attempt (survey_keeps (mk .block no))
    have hf₂ := faults_eq (kc.bind fun _ => ky) kn (bind_eq_ok.mpr ⟨q, σ₁, h₁, h₂⟩) h₃ hf
    have hf₁ := faults_eq kc ky h₁ h₂ hf₂
    obtain ⟨rfl, ht⟩ := condition c _ _ _ hc h₁ hf₁
    obtain ⟨ty, hb⟩ := Survey.attempt_faultless (survey_keeps _) h₂ hf₂
    have hf₃ : σ'.faults = σ₂.faults := hf.trans hf₂.symm
    obtain ⟨ty', hb'⟩ := Survey.attempt_faultless (survey_keeps _) h₃ hf₃
    rw [Tree.survey] at hb hb'
    exact .choice ht (wellTyped_block ihy hb hf₂) (wellTyped_block ihn hb' hf₃)

/-- A tree in which the survey finds nothing passes it as a whole. -/
theorem survey_of_findings {t : Tree} (h : t.findings = []) :
    ∃ r σ, t.survey ⟨.empty, []⟩ = .ok r σ ∧ σ.faults = [] := by
  unfold findings at h
  cases ha : attempt t.survey ⟨.empty, []⟩ with
  | error e σ =>
    unfold attempt at ha
    split at ha <;> cases ha
  | ok r σ =>
    rw [ha] at h
    obtain ⟨ty, ht⟩ := Survey.attempt_faultless t.survey_keeps ha h
    exact ⟨ty, σ, ht, h⟩

/-- The survey finds nothing in a program iff the program is well typed. -/
theorem IsProgram.findings_eq_nil {t : Tree} (ht : t.IsProgram) :
    t.findings = [] ↔ ∃ Γ, WellTyped .empty t Γ := by
  constructor
  · intro h
    obtain ⟨r, σ, hs, hf⟩ := survey_of_findings h
    obtain ⟨body, rfl, hb⟩ := ht
    rw [Tree.survey] at hs
    have hblock : ∀ t ∈ [mk .block body], ∀ σ r σ', t.survey σ = .ok r σ' →
        σ'.faults = σ.faults → WellTyped σ.kinds t σ'.kinds := by
      intro t ht σ r σ' h hf
      rw [List.mem_singleton.mp ht, Tree.survey] at h
      rw [List.mem_singleton.mp ht]
      exact wellTyped_block (fun u hu => (hb u hu).wellTyped) h hf
    cases wellTyped_block hblock hs hf with
    | next h hs =>
      cases hs
      exact ⟨_, .program h⟩
  · rintro ⟨Γ, h⟩
    unfold findings
    rw [attempt_of_ok (h.survey [])]
    rfl

/-! ## Check and rules -/

/-- The check of a tree looks at its children, and then at its root. -/
theorem check_mk (c : Checker) (n : Node) (ts : List Tree) :
    c.check (mk n ts) = (ts.foldl Checker.check c).examine (mk n ts) := by
  rw [Checker.check, Checker.checkAll_eq]

/-- The check finds nothing in an expression that has a type. -/
theorem HasType.check {c : Checker} {e : Tree} {ty : Ty} (h : HasType c.kindOf? e ty) :
    c.check e = c := by
  have binary : ∀ (n : Node) (l r : Tree), c.check l = c → c.check r = c →
      c.check (mk n [l, r]) = c.examine (mk n [l, r]) := by
    intro n l r hl hr
    rw [check_mk]
    show ((c.check l).check r).examine _ = _
    rw [hl, hr]
  induction h with
  | @name x kind h =>
    show (if (c.kindOf? x).isSome then c else _) = c
    rw [h]
    rfl
  | integer n => rfl
  | real x => rfl
  | text s => rfl
  | arithmetic op _ _ ihl ihr => exact binary _ _ _ ihl ihr
  | compare op _ _ ihl ihr => exact binary _ _ _ ihl ihr
  | connect op _ _ ihl ihr => exact binary _ _ _ ihl ihr
  | @negate e _ ih =>
    rw [check_mk]
    show (c.check e).examine _ = c
    rw [ih]
    rfl

/-- The kind that shows at the root of an expression is the one that its type says. -/
theorem HasType.kindOfValue? {c : Checker} {e : Tree} {kind : Kind}
    (h : HasType c.kindOf? e (Lower.typeOf kind)) : c.kindOfValue? e = some kind := by
  generalize hty : Lower.typeOf kind = ty at h
  cases h with
  | name hx =>
    refine (show c.kindOf? _ = _ from hx).trans ?_
    rename_i kind'
    cases kind <;> cases kind' <;> first | rfl | cases hty
  | integer n => cases kind <;> first | rfl | cases hty
  | real x => cases kind <;> first | rfl | cases hty
  | text s => cases kind <;> first | rfl | cases hty
  | arithmetic op _ _ => cases kind <;> first | rfl | cases hty
  | compare op _ _ => cases kind <;> cases hty
  | connect op _ _ => cases kind <;> cases hty
  | negate _ => cases kind <;> cases hty

theorem HasType.declared {e : Tree} {ty : Ty} (h : HasType Γ e ty) : e.declared = [] := by
  induction h with
  | name _ => rfl
  | integer n => rfl
  | real x => rfl
  | text s => rfl
  | arithmetic op _ _ ihl ihr => simp [declared_mk, ihl, ihr, Node.declares?]
  | compare op _ _ ihl ihr => simp [declared_mk, ihl, ihr, Node.declares?]
  | connect op _ _ ihl ihr => simp [declared_mk, ihl, ihr, Node.declares?]
  | negate _ ih => simp [declared_mk, ih, Node.declares?]

/-- The check finds nothing in a well-typed tree with new names only, and then knows the kinds that
the rules say. -/
def PassesCheck (Γ : Context) (t : Tree) (Γ' : Context) : Prop := ∀ c : Checker, c.kindOf? = Γ →
  t.declared.Nodup → (∀ x ∈ t.declared, Γ x = none) →
    (c.check t).faults = c.faults ∧ (c.check t).kindOf? = Γ'

/-- What is not declared in a tree keeps its kind. -/
theorem WellTyped.eq_of_not_declared {t : Tree} (h : WellTyped Γ t Γ') {x : String}
    (hx : x ∉ t.declared) : Γ' x = Γ x := by
  induction h with
  | declare Γ y kind =>
    have hne : x ≠ y := fun e => hx (by rw [declared_mk, e]; simp [Node.declares?])
    exact if_neg hne
  | assign _ _ => rfl
  | increment _ => rfl
  | decrement _ => rfl
  | print _ => rfl
  | loop _ _ ih => exact ih fun hm => hx (by rw [declared_mk]; simp [hm])
  | condition _ _ ih => exact ih fun hm => hx (by rw [declared_mk]; simp [hm])
  | choice _ _ _ ihy ihn =>
    exact (ihn fun hm => hx (by rw [declared_mk]; simp [hm])).trans
      (ihy fun hm => hx (by rw [declared_mk]; simp [hm]))
  | nothing Γ => rfl
  | next _ _ ih ihs =>
    rw [declared_next, List.mem_append, not_or] at hx
    exact (ihs hx.2).trans (ih hx.1)
  | program _ ih => exact ih fun hm => hx (by rw [declared_mk]; simp [hm])

/-- Two trees after each other pass the check if the second declares nothing that the first does. -/
theorem PassesCheck.next {Γ₁ Γ₂ : Context} {t u : Tree} {c : Checker} (hty : WellTyped Γ t Γ₁)
    (ht : PassesCheck Γ t Γ₁) (hu : PassesCheck Γ₁ u Γ₂) (hc : c.kindOf? = Γ)
    (hd : (t.declared ++ u.declared).Nodup) (hnew : ∀ x ∈ t.declared ++ u.declared, Γ x = none) :
    ((c.check t).check u).faults = c.faults ∧ ((c.check t).check u).kindOf? = Γ₂ := by
  obtain ⟨hdt, hdu, hdisj⟩ := List.nodup_append.mp hd
  obtain ⟨hf, hk⟩ := ht c hc hdt fun x hx => hnew x (List.mem_append_left _ hx)
  obtain ⟨hf', hk'⟩ := hu (c.check t) hk hdu fun x hx => by
    have hnot : x ∉ t.declared := fun hm => hdisj x hm x hx rfl
    rw [hty.eq_of_not_declared hnot]
    exact hnew x (List.mem_append_right _ hx)
  exact ⟨hf'.trans hf, hk'⟩

/-- A node with an expression below it that the check does not look at. -/
theorem passesCheck_expression {n : Node} {e : Tree} {ty : Ty} (he : HasType Γ e ty)
    (hn : ∀ c : Checker, c.examine (mk n [e]) = c) : PassesCheck Γ (mk n [e]) Γ := by
  intro c hc _ _
  subst hc
  have hcheck : c.check (mk n [e]) = c := by
    rw [check_mk, hn]
    exact he.check
  rw [hcheck]
  exact ⟨rfl, rfl⟩

theorem passesCheck_guarded {cond body : Tree} (g : Guard) (hc : HasType Γ cond .truth)
    (hb : PassesCheck Γ body Γ') : PassesCheck Γ (mk g.node [cond, body]) Γ' := by
  intro c hk hd hnew
  have hdeclared : (mk g.node [cond, body]).declared = body.declared := by
    cases g <;> simp [declared_mk, hc.declared, Guard.node, Node.declares?]
  rw [hdeclared] at hd hnew
  have hcheck : c.check (mk g.node [cond, body]) = c.check body := by
    subst hk
    rw [check_mk]
    have hn : ∀ c : Checker, c.examine (mk g.node [cond, body]) = c := by
      cases g <;> exact fun _ => rfl
    rw [hn]
    show (c.check cond).check body = _
    rw [hc.check]
  rw [hcheck]
  exact hb c hk hd hnew

theorem check_next (c : Checker) (t : Tree) (ts : List Tree) :
    c.check (mk .block (t :: ts)) = (c.check t).check (mk .block ts) := by
  rw [check_mk, check_mk]
  rfl

/-- The check finds nothing in an assignment of the right kind. -/
theorem examine_assign {c : Checker} {x : String} {kind : Kind} {e : Tree}
    (hx : c.kindOf? x = some kind) (he : c.kindOfValue? e = some kind) :
    c.examine (mk (.assign x) [e]) = c := by
  have hvalue : [e].head?.bind c.kindOfValue? = some kind := he
  simp only [Checker.examine, node, children, hx, hvalue, if_true]

/-- **The check finds nothing in a well-typed tree that declares no name twice.** -/
theorem WellTyped.check {t : Tree} (h : WellTyped Γ t Γ') : PassesCheck Γ t Γ' := by
  induction h with
  | declare Γ x kind =>
    intro c hc _ hnew
    have hx : c.kindOf? x = none := by rw [hc]; exact hnew x (by simp [declared_mk, Node.declares?])
    have he : c.check (mk (.declare x kind) []) = { c with kinds := (x, kind) :: c.kinds } := by
      show (if (c.kindOf? x).isSome then _ else _) = _
      rw [hx]
      rfl
    rw [he]
    refine ⟨rfl, funext fun y => ?_⟩
    show List.lookup y ((x, kind) :: c.kinds) = if y = x then some kind else Γ y
    rw [List.lookup_cons, ← hc]
    by_cases hy : y = x
    · rw [if_pos hy, hy, beq_self_eq_true]
    · rw [if_neg hy, beq_false_of_ne hy]; rfl
  | @assign Γ x kind e hx he =>
    intro c hc _ _
    subst hc
    have hcheck : c.check (mk (.assign x) [e]) = c := by
      rw [check_mk]
      show (c.check e).examine _ = c
      rw [he.check]
      exact examine_assign hx he.kindOfValue?
    rw [hcheck]
    exact ⟨rfl, rfl⟩
  | increment hx => exact passesCheck_expression (.name hx) fun _ => rfl
  | decrement hx => exact passesCheck_expression (.name hx) fun _ => rfl
  | print he => exact passesCheck_expression he fun _ => rfl
  | loop hc _ ih => exact passesCheck_guarded .loop hc ih
  | condition hc _ ih => exact passesCheck_guarded .condition hc ih
  | @choice Γ Γ₁ Γ₂ cond yes no hc hy _ ihy ihn =>
    intro c hk hd hnew
    have hdeclared : (mk .choice [cond, yes, no]).declared = yes.declared ++ no.declared := by
      simp [declared_mk, hc.declared, Node.declares?]
    rw [hdeclared] at hd hnew
    have hcheck : c.check (mk .choice [cond, yes, no]) = (c.check yes).check no := by
      subst hk
      rw [check_mk]
      show ((c.check cond).check yes).check no = _
      rw [hc.check]
    rw [hcheck]
    exact ihy.next hy ihn hk hd hnew
  | nothing Γ => exact fun c hc _ _ => ⟨rfl, hc⟩
  | next h _ ih ihs =>
    intro c hk hd hnew
    rw [declared_next] at hd hnew
    rw [check_next]
    exact ih.next h ihs hk hd hnew
  | @program Γ Γ' t _ ih =>
    intro c hk hd hnew
    have hdeclared : (mk .program [t]).declared = t.declared := by
      simp [declared_mk, Node.declares?]
    rw [hdeclared] at hd hnew
    rw [check_mk]
    exact ih c hk hd hnew

/-! ## Compiling -/

/-- A program is compiled iff no name is declared twice and it is well typed. -/
theorem IsProgram.compile_iff {t : Tree} (ht : t.IsProgram) :
    (∃ m, t.compile = .ok m) ↔ t.declared.Nodup ∧ ∃ Γ, WellTyped .empty t Γ := by
  rw [← ht.findings_eq_nil]
  constructor
  · rintro ⟨m, h⟩
    obtain ⟨hc, hl⟩ := compile_eq_ok.mp h
    refine ⟨declared_nodup hc, ?_⟩
    by_contra hne
    rw [t.lower_result.2 hne] at hl
    cases hl
  · rintro ⟨hd, hf⟩
    obtain ⟨m, hm⟩ := t.lower_result.1 hf
    obtain ⟨Γ, hty⟩ := ht.findings_eq_nil.mp hf
    exact ⟨m, compile_eq_ok.mpr ⟨(hty.check .fresh rfl hd fun _ _ => rfl).1, hm⟩⟩

/-- **A program read from a source is compiled iff no name is declared twice in it and it is well
typed**: every variable is declared before its uses in the text, operands, conditions, printed and
assigned values have the types that the rules say, and steps are of numbers. -/
theorem compile_source_iff {source : String} {t : Tree} (h : parseSource source = .ok t) :
    (∃ m, t.compile = .ok m) ↔ t.declared.Nodup ∧ ∃ Γ, WellTyped .empty t Γ :=
  (parseSource_shape h).compile_iff

/-- A loop that declares a text, which is printed after the loop. -/
def countdown : Tree :=
  let cond := mk (.connect .and) [mk (.compare .gt) [mk (.name "n") [], mk (.integer 0) []],
    mk .negate [mk (.compare .eq) [mk (.name "n") [], mk (.integer 9) []]]]
  let body := mk .block [mk (.decrement "n") [mk (.name "n") []], mk (.declare "s" .text) [],
    mk (.assign "s") [mk (.text "a") []]]
  mk .program [mk .block [mk (.declare "n" .number) [], mk .loop [cond, body],
    mk .print [mk (.name "s") []]]]

theorem countdown_wellTyped : ∃ Γ, WellTyped .empty countdown Γ := by
  let Γ₁ := Context.empty.declare "n" .number
  let Γ₂ := Γ₁.declare "s" .text
  have hn : HasType Γ₁ (mk (.name "n") []) .number := @HasType.name _ "n" .number rfl
  have hcond := HasType.connect .and (.compare .gt hn (.integer 0))
    (.negate (.compare .eq hn (.integer 9)))
  have hstep : WellTyped Γ₁ (mk (.decrement "n") [mk (.name "n") []]) Γ₁ := .decrement rfl
  have hassign : WellTyped Γ₂ (mk (.assign "s") [mk (.text "a") []]) Γ₂ :=
    .assign (show Γ₂ "s" = some Kind.text from rfl) (.text "a")
  have hprint : WellTyped Γ₂ (mk .print [mk (.name "s") []]) Γ₂ :=
    .print (HasType.name (show Γ₂ "s" = some Kind.text from rfl))
  have hbody := hstep.next ((WellTyped.declare Γ₁ "s" .text).next (hassign.next (.nothing Γ₂)))
  exact ⟨Γ₂, .program ((WellTyped.declare .empty "n" .number).next
    ((WellTyped.loop hcond hbody).next (hprint.next (.nothing Γ₂))))⟩

theorem compile_countdown :
    parseSource "num n; while (n > 0 && !(n == 9)) \x7b n--; str s; s = \"a\"; \x7d print s;" =
      .ok countdown ∧ ∃ m, countdown.compile = .ok m := by
  have h : parseSource
      "num n; while (n > 0 && !(n == 9)) \x7b n--; str s; s = \"a\"; \x7d print s;" =
        .ok countdown := by decide +kernel
  exact ⟨h, (compile_source_iff h).mpr ⟨by decide, countdown_wellTyped⟩⟩

end Tree

end FlowLang
