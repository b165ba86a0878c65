import FlowLang.Proofs.FaultKinds
import FlowLang.Proofs.Typing

/-!
# Check and lowering agree on names

The check (`SemanticVisitor`) reads all nodes of a tree one after the other, children first.
Lowering goes through the constructs one by one, gives up a statement at its first fault, and has
its own scope (`SymbolTable`). But expressions declare nothing, so a program in which the check
finds nothing has the same variables for both, whatever is wrong with its types.

* `Checker.names_foldl`: the variables of a check without fault are the declared ones.
* `Tree.IsStatement.agrees`: if the check finds nothing in a statement, then the survey of it finds
  faults of types only, and knows the same variables in the end.
* **`Tree.lower_names`**: so do lowering and check for whole programs, and each variable has a slot
  of its own.
-/

namespace FlowLang

/-! ## A check without fault -/

namespace Checker

/-- The variables of the check and their kinds. -/
def Knows (c : Checker) (Γ : Context) : Prop := Γ = c.kindOf?

/-- If nothing is found in the end, then nothing was found before. -/
theorem faults_of_check {c : Checker} {t : Tree} (h : (c.check t).faults = []) : c.faults = [] :=
  List.prefix_nil.mp (h ▸ c.faults_check t)

theorem report_faults_ne (c : Checker) (e : DeclarationFault) : (c.report e).faults ≠ [] := by
  simp [report]

/-- A name without fault is declared. -/
theorem examine_name {c : Checker} {x : String} (ts : List Tree)
    (hf : (c.examine (.mk (.name x) ts)).faults = []) :
    (c.kindOf? x).isSome ∧ c.examine (.mk (.name x) ts) = c := by
  have he : c.examine (.mk (.name x) ts) =
      if (c.kindOf? x).isSome then c else c.report (.undeclared x) := rfl
  by_cases hx : (c.kindOf? x).isSome
  · rw [he, if_pos hx]
    exact ⟨hx, rfl⟩
  · rw [he, if_neg hx] at hf
    exact absurd hf (c.report_faults_ne _)

/-- An assignment without fault is to a declared variable. -/
theorem examine_assign {c : Checker} {x : String} {ts : List Tree}
    (hf : (c.examine (.mk (.assign x) ts)).faults = []) : (c.kindOf? x).isSome := by
  cases hx : c.kindOf? x with
  | some kind => rfl
  | none =>
    have he : c.examine (.mk (.assign x) ts) = c.report (.undeclared x) := by
      simp only [examine, Tree.node, hx]
    rw [he] at hf
    exact absurd hf (c.report_faults_ne _)

/-- Nothing but a declaration makes a difference to the variables. -/
theorem knows_examine {c : Checker} {t : Tree} (hn : t.node.declares? = none) :
    (c.examine t).Knows = c.Knows := by
  unfold Knows kindOf?
  rw [examine_kinds hn]

theorem kindOf?_cons (c : Checker) (x : String) (kind : Kind) :
    { c with kinds := (x, kind) :: c.kinds }.kindOf? = Context.declare c.kindOf? x kind := by
  funext y
  simp only [kindOf?, Context.declare, List.lookup_cons]
  by_cases h : y = x
  · simp [h]
  · simp [h, beq_false_of_ne h]

/-- **The variables of a check without fault are the declared ones**, the last one first. -/
theorem names_foldl (ts : List Tree) (c : Checker) (hf : (ts.foldl examine c).faults = []) :
    (ts.foldl examine c).kinds.map (·.1) =
      (ts.filterMap (·.node.declares?)).reverse ++ c.kinds.map (·.1) := by
  induction ts generalizing c with
  | nil => rfl
  | cons t ts ih =>
    have hf₁ : (c.examine t).faults = [] := List.prefix_nil.mp (hf ▸ faults_foldl ts (c.examine t))
    rw [List.foldl_cons, ih _ hf]
    cases hx : t.node.declares? with
    | none => simp [examine_kinds hx, hx]
    | some x =>
      obtain ⟨kind, hn⟩ := Node.declares?_eq_some hx
      simp [(examine_declare hn hf₁).2, hx]

theorem isSome_kindOf? {c : Checker} {x : String} :
    (c.kindOf? x).isSome ↔ x ∈ c.kinds.map (·.1) := by
  rw [kindOf?, List.lookup_isSome_iff, List.mem_map]
  simp only [beq_iff_eq, @eq_comm _ x]

end Checker

/-! ## Check and survey -/

namespace Tree

open Survey LoweringFault

/-- If the check finds nothing in the tree, then the survey of the tree finds faults of types only,
and knows the same variables in the end. -/
def Agrees (t : Tree) : Prop := ∀ c : Checker, (c.check t).faults = [] →
  Raises OfTypes c.Knows (c.check t).Knows t.survey

/-- An expression that the survey passes has a type. -/
theorem IsExpression.raises_value {e : Tree} (he : e.IsExpression) {P : LoweringFault → Prop}
    {I J : Context → Prop} (h : Raises P I J e.survey) : Raises P I J (valueOf e e.survey) := by
  refine raises_valueOf e h fun σ σ' hs => ?_
  obtain ⟨-, ty, hty, -⟩ := he.hasType hs
  cases hty

theorem undeclared_of_knows {c : Checker} {x : String} (hx : (c.kindOf? x).isSome) :
    ∀ Γ, c.Knows Γ → Γ x = none → OfTypes (.undeclared x) := by
  rintro _ rfl hn
  rw [hn] at hx
  cases hx

/-- An expression leaves the check as it is. -/
theorem IsExpression.checked {e : Tree} (h : e.IsExpression) {c : Checker}
    (hf : (c.check e).faults = []) : c.check e = c ∧ Raises OfTypes c.Knows c.Knows e.survey := by
  induction h with
  | name x =>
    obtain ⟨hx, he⟩ := Checker.examine_name [] hf
    refine ⟨he, ?_⟩
    rw [survey]
    exact (raises_kindOf (undeclared_of_knows hx)).bind fun _ => raises_pure _
  | literal l =>
    rw [survey_literal]
    exact ⟨by cases l <;> rfl, raises_pure _⟩
  | text s =>
    rw [survey]
    exact ⟨rfl, raises_pure _⟩
  | @binary l r op hl hr ihl ihr =>
    have hcheck : c.check (mk op.node [l, r]) = (c.check l).check r := by
      rw [check_mk]
      cases op <;> rfl
    rw [hcheck] at hf ⊢
    obtain ⟨el, sl⟩ := ihl (Checker.faults_of_check hf)
    rw [el] at hf ⊢
    obtain ⟨er, sr⟩ := ihr hf
    refine ⟨er, ?_⟩
    rw [survey_binary]
    exact (hl.raises_value sl).bind fun lhs => (hr.raises_value sr).bind fun rhs =>
      (raises_binary (fun _ => id) op lhs rhs).bind fun _ => raises_pure _
  | @negate e he ih =>
    have hcheck : c.check (mk .negate [e]) = c.check e := by
      rw [check_mk]
      rfl
    rw [hcheck] at hf ⊢
    obtain ⟨ee, se⟩ := ih hf
    refine ⟨ee, ?_⟩
    rw [survey]
    exact (he.raises_value se).bind fun ty => (raises_negate (fun _ => id) ty).bind fun _ =>
      raises_pure _

theorem agrees_block {ts : List Tree} (h : ∀ t ∈ ts, t.Agrees) : (mk .block ts).Agrees := by
  intro c hf
  rw [survey]
  generalize (none : Option Ty) = last
  induction ts generalizing c last with
  | nil => rw [surveyAll]; exact raises_pure last
  | cons t ts ih =>
    rw [check_next] at hf ⊢
    rw [surveyAll]
    exact (h t List.mem_cons_self c (Checker.faults_of_check hf)).next fun ty =>
      ih (fun u hu => h u (List.mem_cons_of_mem t hu)) (c.check t) hf ty.join

/-- **The survey of a statement agrees with the check.** -/
theorem IsStatement.agrees {t : Tree} (h : t.IsStatement) : t.Agrees := by
  have hP : ∀ e : LoweringFault, e.OfTypes → e.OfTypes := fun _ => id
  induction h with
  | declare x kind =>
    intro c hf
    rw [check_mk] at hf
    obtain ⟨-, he⟩ := Checker.examine_declare (c := c) (t := mk (.declare x kind) []) rfl hf
    refine raises_declare fun Γ hk => ?_
    show Γ.declare x kind = (c.examine (mk (.declare x kind) [])).kindOf?
    rw [he, Checker.kindOf?_cons, show Γ = c.kindOf? from hk]
  | @assign e x he =>
    intro c hf
    have hcheck : c.check (mk (.assign x) [e]) = (c.check e).examine (mk (.assign x) [e]) :=
      check_mk c _ _
    rw [hcheck] at hf ⊢
    have hx := Checker.examine_assign hf
    obtain ⟨ee, se⟩ := he.checked (List.prefix_nil.mp (hf ▸ (c.check e).faults_examine _))
    rw [Checker.knows_examine rfl, ee, survey]
    rw [ee] at hx
    exact (he.raises_value se).bind fun ty =>
      (raises_store hP (undeclared_of_knows hx) ty).bind fun _ => raises_pure _
  | step k x =>
    intro c hf
    have hcheck : c.check (mk (k.node x) [mk (.name x) []]) = c.examine (mk (.name x) []) := by
      rw [check_mk]
      cases k <;> rfl
    rw [hcheck] at hf ⊢
    obtain ⟨hx, he⟩ := Checker.examine_name [] hf
    have hsum : (mk (.arithmetic k.op) [mk (.name x) [], mk (.real .one) []]).IsExpression :=
      .binary (.arithmetic k.op) (.name x) (.literal (.real .one))
    obtain ⟨-, ssum⟩ := hsum.checked (c := c) hf
    rw [he, survey_step]
    unfold stepped
    rw [survey]
    exact (hsum.raises_value ssum).bind fun ty =>
      (raises_store hP (undeclared_of_knows hx) ty).bind fun _ => raises_pure _
  | @print e he =>
    intro c hf
    have hcheck : c.check (mk .print [e]) = c.check e := check_mk c _ _
    rw [hcheck] at hf ⊢
    obtain ⟨ee, se⟩ := he.checked hf
    rw [ee, survey]
    exact (he.raises_value se).bind fun ty => (raises_print hP ty).bind fun _ => raises_pure _
  | @guarded test body g hc _ ih =>
    intro c hf
    have hcheck :
        c.check (mk g.node [test, mk .block body]) = (c.check test).check (mk .block body) := by
      rw [check_mk]
      cases g <;> rfl
    rw [hcheck] at hf ⊢
    obtain ⟨ec, sc⟩ := hc.checked (Checker.faults_of_check hf)
    rw [ec] at hf ⊢
    rw [survey_guarded]
    exact (raises_condition hP (hc.raises_value sc)).next fun _ =>
      (agrees_block ih c hf).next fun _ => raises_pure _
  | @choice test yes no hc _ _ ihy ihn =>
    intro c hf
    have hcheck : c.check (mk .choice [test, mk .block yes, mk .block no]) =
        ((c.check test).check (mk .block yes)).check (mk .block no) := check_mk c _ _
    rw [hcheck] at hf ⊢
    have hfy := Checker.faults_of_check hf
    obtain ⟨ec, sc⟩ := hc.checked (Checker.faults_of_check hfy)
    rw [ec] at hf hfy ⊢
    rw [survey]
    exact (raises_condition hP (hc.raises_value sc)).next fun _ =>
      (agrees_block ihy c hfy).next fun _ => (agrees_block ihn _ hf).next fun _ => raises_pure _

theorem IsProgram.agrees {t : Tree} (h : t.IsProgram) : t.Agrees := by
  obtain ⟨body, rfl, hb⟩ := h
  intro c hf
  have hcheck : c.check (mk .program [mk .block body]) = c.check (mk .block body) := check_mk c _ _
  rw [hcheck] at hf ⊢
  rw [survey, surveyAll]
  refine (agrees_block (fun u hu => (hb u hu).agrees) c hf).next fun ty => ?_
  rw [surveyAll]
  exact raises_pure _

/-! ## Scope and slots -/

/-- The scope after lowering fits the slots, and has the variables that the survey knows. -/
theorem lower_scope (t : Tree) : ∃ r σ, ∃ s : Lowering,
    Survey.attempt t.survey ⟨.empty, []⟩ = .ok r σ ∧ t.lower.scope = s.scope ∧ s.ScopeFits ∧
      s.Mirrors σ := by
  obtain ⟨v, s, i, ha, hl, -, hp⟩ := t.lowerProgram_apply
  have hstart : Lowering.entry.Mirrors ⟨.empty, []⟩ := ⟨rfl, fun _ => rfl⟩
  obtain ⟨r, σ, he, hm⟩ := t.lowerNode_tracks.attempted Lowering.entry_openAt nofun hstart ha
  refine ⟨r, σ, s, he, ?_, hl.scope nofun, hm⟩
  unfold lower
  rw [hp]

/-- The slots of a module have the declared names, and fit the scope. -/
theorem lower_slots {t : Tree} {m : Module} (h : t.lower.result = .ok m) :
    m.graph.slots.map (·.name) = t.declared ∧ ∀ x b, t.lower.scope.lookup? x = some b →
      m.graph.slots[b.slot]? = some ⟨x, Lower.typeOf b.kind⟩ := by
  obtain ⟨v, s, b, hlow, hends, rfl, hscope⟩ := lower_eq_ok h
  rw [hscope]
  refine ⟨?_, fun x b hx => ?_⟩
  · rw [hends.slots]
    exact hlow.slot_names
  · rw [hends.slots]
    exact hlow.grows.scope nofun x b hx

/-- **Check and lowering agree on names**, in every program read from a source in which the check
finds nothing.

* Lowering reports faults of types only.
* The variables of lowering are those of the check, with the same kinds, and no two of them share a
  slot.
* The slots of a module are those of the variables, with their names and types. -/
theorem lower_names {source : String} {t : Tree} (hp : parseSource source = .ok t)
    (hc : (Checker.fresh.check t).faults = []) :
    (∀ faults, t.lower.result = .error faults → ∀ e ∈ faults, e.OfTypes) ∧
    (∀ x, (t.lower.scope.lookup? x).map (·.kind) = (Checker.fresh.check t).kindOf? x) ∧
    (∀ x y b b', t.lower.scope.lookup? x = some b → t.lower.scope.lookup? y = some b' →
      b.slot = b'.slot → x = y) ∧
    ∀ m, t.lower.result = .ok m →
      (∀ x b, t.lower.scope.lookup? x = some b →
        m.graph.slots[b.slot]? = some ⟨x, Lower.typeOf b.kind⟩) ∧
      ∀ i < m.graph.slots.length, ∃ x b, t.lower.scope.lookup? x = some b ∧ b.slot = i := by
  obtain ⟨r, σ, s, hs, hscope, hfits, hm⟩ := t.lower_scope
  obtain ⟨hknows, hfaults, -⟩ :=
    ((parseSource_shape hp).agrees .fresh hc).attempt ⟨.empty, []⟩ rfl nofun
  have hkinds :
      ∀ x, (t.lower.scope.lookup? x).map (·.kind) = (Checker.fresh.check t).kindOf? x := by
    intro x
    rw [hs] at hknows
    rw [hscope, hm.kinds x]
    exact congrFun hknows x
  refine ⟨fun faults h => ?_, hkinds, fun x y b b' hx hy he => ?_, fun m hm => ?_⟩
  · rw [eq_findings_of_lower h]
    exact hfaults
  · rw [hscope] at hx hy
    have h₁ := hfits x b hx
    rw [he, hfits y b' hy] at h₁
    exact (congrArg Slot.name (Option.some.inj h₁)).symm
  · obtain ⟨hnames, hslots⟩ := lower_slots hm
    refine ⟨hslots, fun i hi => ?_⟩
    -- the name of the slot is declared, so it is that of a variable, and no other slot has it
    have hi' : i < (m.graph.slots.map (·.name)).length := by simpa using hi
    obtain ⟨x, hx⟩ : ∃ x, (m.graph.slots.map (·.name))[i]? = some x :=
      ⟨_, List.getElem?_eq_getElem hi'⟩
    have hknown : ((t.lower.scope.lookup? x).map (·.kind)).isSome := by
      rw [hkinds, Checker.isSome_kindOf?, Checker.check_eq_foldl,
        Checker.names_foldl _ _ (Checker.check_eq_foldl _ t ▸ hc)]
      have hmem := List.mem_of_getElem? hx
      rw [hnames] at hmem
      exact List.mem_append_left _ (List.mem_reverse.mpr hmem)
    obtain ⟨b, hb⟩ := Option.isSome_iff_exists.mp (by simpa using hknown)
    refine ⟨x, b, hb, ?_⟩
    have hslot : (m.graph.slots.map (·.name))[b.slot]? = some x := by simp [hslots x b hb]
    have hnodup : (m.graph.slots.map (·.name)).Nodup := hnames ▸ declared_nodup hc
    exact ((List.getElem?_inj hi' hnodup).mp (hx.trans hslot.symm)).symm

/-- A variable is declared in a body and assigned after it. -/
def declaredWithin (test : Tree) : Tree :=
  mk .program [mk .block [mk (.declare "x" .number) [], mk .condition [test,
    mk .block [mk (.declare "s" .text) []]], mk (.assign "s") [mk (.text "a") []]]]

/-- Whether the condition is a truth value or not, the variable in the body is there. -/
theorem declaredWithin_names :
    (parseSource "num x; if (x) \x7b str s; \x7d s = \"a\";" =
      .ok (declaredWithin (mk (.name "x") [])) ∧
      (∀ e ∈ [LoweringFault.graph (.typeMismatch .branch .truth .number)], e.OfTypes) ∧
      ((declaredWithin (mk (.name "x") [])).lower.scope.lookup? "s").map (·.kind) = some .text) ∧
    ∃ t m, parseSource "num x; if (x > 0) \x7b str s; \x7d s = \"a\";" = .ok t ∧
      t.lower.result = .ok m ∧ m.graph.slots.length = 2 ∧
      ∃ x b, t.lower.scope.lookup? x = some b ∧ b.slot = 1 := by
  have hp : parseSource "num x; if (x) \x7b str s; \x7d s = \"a\";" =
      .ok (declaredWithin (mk (.name "x") [])) := by decide +kernel
  have hf : (declaredWithin (mk (.name "x") [])).findings =
      [.graph (.typeMismatch .branch .truth .number)] := by decide +kernel
  obtain ⟨hfaults, hkinds, -⟩ := lower_names hp (by decide +kernel)
  let t := declaredWithin (mk (.compare .gt) [mk (.name "x") [], mk (.integer 0) []])
  have hp' : parseSource "num x; if (x > 0) \x7b str s; \x7d s = \"a\";" = .ok t := by
    decide +kernel
  have hcount : (t.lower.result.toOption.map (·.graph.slots.length)) = some 2 := by decide +kernel
  obtain ⟨-, -, -, hslots⟩ := lower_names hp' (by decide +kernel)
  refine ⟨⟨hp, hfaults _ ?_, hkinds "s"⟩, ?_⟩
  · rw [← hf]
    exact lower_result _ |>.2 (by rw [hf]; simp)
  · cases hm : t.lower.result with
    | error e => rw [hm] at hcount; cases hcount
    | ok m =>
      rw [hm] at hcount
      have hlen : m.graph.slots.length = 2 := Option.some.inj hcount
      exact ⟨t, m, hp', hm, hlen, (hslots m hm).2 1 (by omega)⟩

end Tree

end FlowLang
