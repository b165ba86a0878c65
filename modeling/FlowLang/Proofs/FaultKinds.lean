import FlowLang.Proofs.Survey

/-!
# The kinds of faults

Lowering has no faults but those for which the tree is to blame.

* `LoweringFault.OfTypes`: a value does not have the type that is needed. `LoweringFault.OfTree`:
  this, or a name, a number of children or a value is wrong.
* `Survey.Raises P I J step`: from variables as `I` says, the step of a survey leads to variables as
  `J` says, and its faults are of the kind `P`. The rules carry this over to whole trees.
* `Tree.findings_ofTree`: all faults of a tree are of the kind `OfTree`.
-/

namespace FlowLang

namespace LoweringFault

/-- A value does not have the type that is needed. -/
inductive OfTypes : LoweringFault → Prop
  | unprintable : OfTypes (.unprintable .truth)
  | typeMismatch (use : Use) (expected found : Ty) :
      OfTypes (.graph (.typeMismatch use expected found))

/-- The tree is to blame, and not the way in which the graph is built. -/
inductive OfTree : LoweringFault → Prop
  | undeclared (x : String) : OfTree (.undeclared x)
  | arity (label : String) (expected found : Nat) : OfTree (.arity label expected found)
  | noValue (label : String) : OfTree (.noValue label)
  | types {e : LoweringFault} (h : e.OfTypes) : OfTree e

end LoweringFault

namespace Survey

variable {α β : Type} {P : LoweringFault → Prop} {I J K : Context → Prop}

/-- If the variables are as `I` says and the faults recorded so far of the kind `P`, then after the
step the variables are as `J` says and the faults still of the kind `P`, and so is its own fault. -/
def Raises (P : LoweringFault → Prop) (I J : Context → Prop) (step : Survey α) : Prop :=
  ∀ σ, I σ.kinds → (∀ e ∈ σ.faults, P e) → J (after (step σ)).kinds ∧
    (∀ e ∈ (after (step σ)).faults, P e) ∧ ∀ e σ', step σ = .error e σ' → P e

theorem raises_pure (a : α) : Raises P I I (pure a) := fun _ hI hP => ⟨hI, hP, nofun⟩

theorem raises_throw {e : LoweringFault} (he : P e) : Raises P I I (throw e : Survey α) := by
  refine fun σ hI hP => ⟨hI, hP, ?_⟩
  rintro _ _ ⟨⟩
  exact he

/-- The second step may not come to pass, so it leaves the variables as they are. -/
theorem Raises.bind {x : Survey α} {f : α → Survey β} (hx : Raises P I J x)
    (hf : ∀ a, Raises P J J (f a)) : Raises P I J (x >>= f) := by
  intro σ hI hP
  obtain ⟨hJ, hfaults, herror⟩ := hx σ hI hP
  rw [bind_apply]
  cases hs : x σ with
  | error e σ₁ =>
    rw [hs] at hJ hfaults
    refine ⟨hJ, hfaults, ?_⟩
    rintro _ _ ⟨⟩
    exact herror e σ₁ hs
  | ok a σ₁ =>
    rw [hs] at hJ hfaults
    exact hf a σ₁ hJ hfaults

theorem Raises.attempt {step : Survey α} (h : Raises P I J step) :
    Raises P I J (Survey.attempt step) := by
  intro σ hI hP
  obtain ⟨hJ, hfaults, herror⟩ := h σ hI hP
  unfold Survey.attempt
  cases hs : step σ with
  | ok a σ₁ =>
    rw [hs] at hJ hfaults
    exact ⟨hJ, hfaults, nofun⟩
  | error e σ₁ =>
    rw [hs] at hJ hfaults
    refine ⟨hJ, fun e' he' => ?_, nofun⟩
    rcases List.mem_append.mp he' with he' | he'
    · exact hfaults e' he'
    · rw [List.mem_singleton.mp he']
      exact herror e σ₁ hs

/-- After a step that is tried, there is always the next one. -/
theorem Raises.next {x : Survey α} {f : Option α → Survey β} (hx : Raises P I J x)
    (hf : ∀ a, Raises P J K (f a)) : Raises P I K (Survey.attempt x >>= f) := by
  intro σ hI hP
  obtain ⟨hJ, hfaults, -⟩ := hx.attempt σ hI hP
  obtain ⟨r, σ₁, hs⟩ : ∃ r σ₁, Survey.attempt x σ = .ok r σ₁ := by
    unfold Survey.attempt
    cases x σ with
    | ok a σ₁ => exact ⟨_, _, rfl⟩
    | error e σ₁ => exact ⟨_, _, rfl⟩
  rw [hs] at hJ hfaults
  rw [bind_apply, hs]
  exact hf r σ₁ hJ hfaults

theorem raises_valueOf (t : Tree) {step : Survey (Option Ty)} (h : Raises P I J step)
    (hn : ∀ σ σ', step σ = .ok none σ' → P (.noValue t.node.label)) :
    Raises P I J (valueOf t step) := by
  intro σ hI hP
  obtain ⟨hJ, hfaults, herror⟩ := h σ hI hP
  unfold valueOf
  rw [bind_apply]
  cases hs : step σ with
  | error e σ₁ =>
    rw [hs] at hJ hfaults
    refine ⟨hJ, hfaults, ?_⟩
    rintro _ _ ⟨⟩
    exact herror e σ₁ hs
  | ok r σ₁ =>
    rw [hs] at hJ hfaults
    cases r with
    | none => exact raises_throw (hn σ σ₁ hs) σ₁ hJ hfaults
    | some ty => exact raises_pure ty σ₁ hJ hfaults

theorem raises_kindOf {x : String} (hx : ∀ Γ, I Γ → Γ x = none → P (.undeclared x)) :
    Raises P I I (kindOf x) := by
  intro σ hI hP
  unfold kindOf
  cases hk : σ.kinds x with
  | some kind => exact raises_pure kind σ hI hP
  | none => exact raises_throw (α := Kind) (hx σ.kinds hI hk) σ hI hP

theorem raises_declare {x : String} {kind : Kind} (h : ∀ Γ, I Γ → J (Γ.declare x kind)) :
    Raises P I J (Tree.mk (.declare x kind) []).survey := by
  rw [Tree.survey]
  refine fun σ hI hP => ⟨h σ.kinds hI, hP, ?_⟩
  rintro _ _ ⟨⟩

section

variable (hP : ∀ e, e.OfTypes → P e)

include hP

theorem raises_require (use : Use) (found expected : Ty) :
    Raises P I I (require use found expected) := by
  unfold require
  split
  · exact raises_pure ()
  · exact raises_throw (hP _ (.typeMismatch use expected found))

theorem raises_store {x : String} (hx : ∀ Γ, I Γ → Γ x = none → P (.undeclared x)) (ty : Ty) :
    Raises P I I (store x ty) :=
  (raises_kindOf hx).bind fun _ => raises_require hP _ _ _

theorem raises_print (ty : Ty) : Raises P I I (print ty) := by
  unfold print
  split
  · exact raises_throw (hP _ .unprintable)
  · exact raises_pure ()

theorem raises_binary (op : Binary) (lhs rhs : Ty) : Raises P I I (binary op lhs rhs) :=
  (raises_require hP _ _ _).bind fun _ => (raises_require hP _ _ _).bind fun _ => raises_pure _

theorem raises_negate (ty : Ty) : Raises P I I (negate ty) :=
  (raises_require hP _ _ _).bind fun _ => raises_pure _

theorem raises_condition {test : Survey Ty} (h : Raises P I J test) :
    Raises P I J (condition test) :=
  h.bind fun _ => raises_require hP _ _ _

end

end Survey

namespace Tree

open Survey LoweringFault

/-- The survey of a tree finds only faults of the tree, whatever its variables are. -/
def Blames (t : Tree) : Prop := Raises OfTree (fun _ => True) (fun _ => True) t.survey

theorem Blames.value {t : Tree} (h : t.Blames) :
    Raises OfTree (fun _ => True) (fun _ => True) (valueOf t t.survey) :=
  raises_valueOf t h fun _ _ _ => .noValue _

theorem Blames.surveyAll {ts : List Tree} (h : ∀ t ∈ ts, t.Blames) (last : Option Ty) :
    Raises OfTree (fun _ => True) (fun _ => True) (surveyAll last ts) := by
  induction ts generalizing last with
  | nil => rw [Tree.surveyAll]; exact raises_pure last
  | cons t ts ih =>
    rw [Tree.surveyAll]
    exact (h t List.mem_cons_self).next fun ty =>
      ih (fun u hu => h u (List.mem_cons_of_mem t hu)) ty.join

theorem blames (t : Tree) : t.Blames := by
  have hP : ∀ e : LoweringFault, e.OfTypes → e.OfTree := fun _ => .types
  induction t using form_induct with
  | program ts ih => rw [Blames, survey]; exact Blames.surveyAll ih none
  | block ts ih => rw [Blames, survey]; exact Blames.surveyAll ih none
  | name x =>
    rw [Blames, survey]
    exact (raises_kindOf fun _ _ _ => .undeclared x).bind fun _ => raises_pure _
  | literal l => rw [Blames, survey_literal]; exact raises_pure _
  | text s => rw [Blames, survey]; exact raises_pure _
  | declare x kind _ => exact raises_declare fun _ _ => trivial
  | assign x e ih =>
    rw [Blames, survey]
    exact ih.value.bind fun ty => (raises_store hP (fun _ _ _ => .undeclared x) ty).bind fun _ =>
      raises_pure _
  | step k x e ih => rw [Blames, survey_step]; exact ih
  | print e ih =>
    rw [Blames, survey]
    exact ih.value.bind fun ty => (raises_print hP ty).bind fun _ => raises_pure _
  | binary op l r ihl ihr =>
    rw [Blames, survey_binary]
    exact ihl.value.bind fun lhs => ihr.value.bind fun rhs =>
      (raises_binary hP op lhs rhs).bind fun _ => raises_pure _
  | negate e ih =>
    rw [Blames, survey]
    exact ih.value.bind fun ty => (raises_negate hP ty).bind fun _ => raises_pure _
  | guarded g c body ihc ihb =>
    rw [Blames, survey_guarded]
    exact (raises_condition hP ihc.value).next fun _ => ihb.next fun _ => raises_pure _
  | choice c yes no ihc ihy ihn =>
    rw [Blames, survey]
    exact (raises_condition hP ihc.value).next fun _ => ihy.next fun _ => ihn.next fun _ =>
      raises_pure _
  | irregular n ts k hk hl => rw [Blames, survey_irregular hk hl]; exact raises_throw (.arity _ _ _)

/-- **All faults of a tree are faults of the tree.** -/
theorem findings_ofTree (t : Tree) : ∀ e ∈ t.findings, e.OfTree :=
  (t.blames.attempt ⟨.empty, []⟩ trivial nofun).2.1

/-- What lowering reports are the findings. -/
theorem eq_findings_of_lower {t : Tree} {faults : List LoweringFault}
    (h : t.lower.result = .error faults) : faults = t.findings := by
  by_cases hf : t.findings = []
  · obtain ⟨m, hm⟩ := t.lower_result.1 hf
    rw [hm] at h
    cases h
  · rw [t.lower_result.2 hf] at h
    cases h
    rfl

end Tree

end FlowLang
