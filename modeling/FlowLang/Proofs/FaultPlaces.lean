import FlowLang.Proofs.FaultKinds
import FlowLang.Proofs.Grammar
import FlowLang.Proofs.Positions

/-!
# Where lowering finds faults

Lowering (`generate`) goes on after a fault: after a statement (`gen_stmts`), after a condition
(`gen_condition`), and after a body (`gen_body`). Its builder, its strings and its scope keep
changing all the while, but its faults do not depend on that.

* `Tree.places`: the declarations, the other simple statements and the conditions of a program, in
  textual order.
* `Place.fault?`: the fault of a place, which depends on nothing but the place itself and the kinds
  of the variables.
* `Survey.Surveys step ps`: the step of a survey leaves the kinds that the last declarations among
  the places give, and adds the faults of the places. The rules carry this over to statements
  (`Tree.IsStatement.surveys`).
* **`Tree.lower_faults`**: so the faults of a program are those of its places one after the other,
  and what is found at one place makes no difference to any other.
-/

namespace FlowLang

/-! ## Places and their faults -/

/-- A declaration, another simple statement, or the condition of a loop or choice. -/
inductive Place where
  | declaration (x : String) (kind : Kind)
  | assignment (x : String) (e : Tree)
  | step (k : Step) (x : String) (e : Tree)
  | printing (e : Tree)
  | test (c : Tree)

/-- The kind of a declared variable. -/
def Context.kindOf (Γ : Context) (x : String) : Except LoweringFault Kind :=
  (Γ x).elim (.error (.undeclared x)) .ok

/-- Refuses an operand of the wrong type. -/
def Use.demand (use : Use) (expected found : Ty) : Except LoweringFault Unit :=
  if found = expected then .ok () else .error (.graph (.typeMismatch use expected found))

/-- The type of the result. The operand on the left is refused first. -/
def Binary.typeOf (op : Binary) (lhs rhs : Ty) : Except LoweringFault Ty := do
  op.use.demand op.operand lhs
  op.use.demand op.operand rhs
  return op.result

/-- The type of an expression, or its first fault. Both operands are looked at before the
operation. -/
def Tree.typeIn (Γ : Context) : Tree → Except LoweringFault Ty
  | mk (.name x) [] => do return Lower.typeOf (← Γ.kindOf x)
  | mk (.real _) [] => return .number
  | mk (.integer _) [] => return .number
  | mk (.text _) [] => return .pointer
  | mk (.arithmetic op) [l, r] => do Binary.typeOf (.arithmetic op) (← l.typeIn Γ) (← r.typeIn Γ)
  | mk (.compare op) [l, r] => do Binary.typeOf (.compare op) (← l.typeIn Γ) (← r.typeIn Γ)
  | mk (.connect op) [l, r] => do Binary.typeOf (.connect op) (← l.typeIn Γ) (← r.typeIn Γ)
  | mk .negate [e] => do
    Use.negation.demand .truth (← e.typeIn Γ)
    return .truth
  | mk n _ => throw (.noValue n.label)
termination_by structural t => t

namespace Place

/-- Whether a variable can hold a value of a type. -/
def store (Γ : Context) (x : String) (ty : Ty) : Except LoweringFault Unit := do
  Use.store.demand (Lower.typeOf (← Γ.kindOf x)) ty

/-- Whether the place is in order, if the variables have the kinds. A step up or down is an
assignment of a sum or difference, and a declaration is always in order. -/
def inspect (p : Place) (Γ : Context) : Except LoweringFault Unit :=
  match p with
  | .declaration _ _ => return ()
  | .assignment x e => do store Γ x (← e.typeIn Γ)
  | .step k x e => do store Γ x (← Binary.typeOf (.arithmetic k.op) (← e.typeIn Γ) .number)
  | .printing e => do
    if (← e.typeIn Γ) = .truth then throw (.unprintable .truth) else return ()
  | .test c => do Use.branch.demand .truth (← c.typeIn Γ)

/-- The fault of the place, if it has one. -/
def fault? (p : Place) (Γ : Context) : Option LoweringFault :=
  match p.inspect Γ with
  | .ok () => none
  | .error e => some e

/-- The kind that the place declares a name to have. -/
def kindFor? (x : String) : Place → Option Kind
  | .declaration y kind => if y = x then some kind else none
  | _ => none

/-- The kinds that the last declarations of the names give them. -/
def lastKinds (ps : List Place) : Context := fun x => ps.reverse.findSome? (·.kindFor? x)

end Place

namespace Tree

/-- The place that stands at the root of a tree. -/
def place? : Tree → Option Place
  | mk (.declare x kind) [] => some (.declaration x kind)
  | mk (.assign x) [e] => some (.assignment x e)
  | mk (.increment x) [e] => some (.step .up x e)
  | mk (.decrement x) [e] => some (.step .down x e)
  | mk .print [e] => some (.printing e)
  | mk .loop [c, _] => some (.test c)
  | mk .condition [c, _] => some (.test c)
  | mk .choice [c, _, _] => some (.test c)
  | _ => none

/-- The places of a tree in textual order, a condition before the statements of its bodies. -/
def places (t : Tree) : List Place := t.preorder.filterMap place?

theorem places_mk (n : Node) (ts : List Tree) :
    (mk n ts).places = (mk n ts).place?.toList ++ ts.flatMap places := by
  unfold places
  rw [preorder, preorderAll_eq, ← List.filterMap_flatMap]
  cases h : (mk n ts).place? with
  | none => exact List.filterMap_cons_none h
  | some p => exact List.filterMap_cons_some h

end Tree

/-! ## Kinds and faults along the places -/

/-- The kinds after some places, where names without declaration keep theirs. -/
def Context.after (Γ : Context) (ps : List Place) : Context :=
  fun x => (Place.lastKinds ps x).or (Γ x)

namespace Place

/-- The faults of the places one after the other, if the variables have the kinds before the first
of them. -/
def faults (Γ : Context) (ps : List Place) : List LoweringFault :=
  foundIn (fun earlier p => p.fault? (Γ.after earlier)) ps

theorem lastKinds_append (ps qs : List Place) : lastKinds (ps ++ qs) = (lastKinds ps).after qs := by
  funext x
  simp [lastKinds, Context.after, List.findSome?_append]

theorem after_empty (ps : List Place) : Context.empty.after ps = lastKinds ps := by
  funext x
  exact Option.or_none

theorem after_nil (Γ : Context) : Γ.after [] = Γ := by
  funext x
  rfl

theorem after_append (Γ : Context) (ps qs : List Place) :
    Γ.after (ps ++ qs) = (Γ.after ps).after qs := by
  funext x
  show (lastKinds (ps ++ qs) x).or (Γ x) = (lastKinds qs x).or ((lastKinds ps x).or (Γ x))
  rw [lastKinds_append, ← Option.or_assoc]
  rfl

/-- Places that declare the same leave the same kinds. -/
theorem after_congr (Γ : Context) {ps qs : List Place} (h : lastKinds ps = lastKinds qs) :
    Γ.after ps = Γ.after qs := by
  unfold Context.after
  rw [h]

/-- Only a declaration makes a difference to the kinds. -/
theorem after_single (Γ : Context) {p : Place} (h : ∀ x, p.kindFor? x = none) :
    Γ.after [p] = Γ := by
  funext x
  simp [Context.after, lastKinds, h]

theorem after_declaration (Γ : Context) (x : String) (kind : Kind) :
    Γ.after [.declaration x kind] = Γ.declare x kind := by
  funext y
  by_cases h : y = x
  · simp [Context.after, lastKinds, kindFor?, Context.declare, h]
  · simp [Context.after, lastKinds, kindFor?, Context.declare, h, Ne.symm h]

theorem faults_single (Γ : Context) (p : Place) : faults Γ [p] = (p.fault? Γ).toList := by
  unfold faults
  rw [foundIn_singleton, after_nil]

theorem faults_append (Γ : Context) (ps qs : List Place) :
    faults Γ (ps ++ qs) = faults Γ ps ++ faults (Γ.after ps) qs := by
  unfold faults
  rw [foundIn_append]
  simp only [after_append]

end Place

/-! ## Steps of a survey that only look -/

namespace Survey

variable {α β : Type}

/-- A step that looks at the kinds of the variables and changes nothing. -/
def reading (look : Context → Except LoweringFault α) : Survey α := fun σ =>
  match look σ.kinds with
  | .ok a => .ok a σ
  | .error e => .error e σ

theorem reading_bind (look : Context → Except LoweringFault α)
    (next : α → Context → Except LoweringFault β) :
    (reading look >>= fun a => reading (next a)) =
      reading fun Γ => look Γ >>= fun a => next a Γ := by
  funext σ
  rw [bind_apply]
  unfold reading
  dsimp only
  cases look σ.kinds <;> rfl

theorem pure_eq_reading (a : α) : (pure a : Survey α) = reading fun _ => pure a := rfl

theorem kindOf_eq_reading (x : String) : kindOf x = reading (·.kindOf x) := by
  funext σ
  unfold kindOf reading Context.kindOf
  dsimp only
  cases σ.kinds x <;> rfl

theorem require_eq_reading (use : Use) (found expected : Ty) :
    require use found expected = reading fun _ => use.demand expected found := by
  unfold require Use.demand
  split <;> rfl

theorem store_eq_reading (x : String) (ty : Ty) : store x ty = reading (Place.store · x ty) := by
  unfold store Place.store
  simp only [kindOf_eq_reading, require_eq_reading, reading_bind]

theorem binary_eq_reading (op : Binary) (lhs rhs : Ty) :
    binary op lhs rhs = reading fun _ => op.typeOf lhs rhs := by
  unfold binary Binary.typeOf
  simp only [require_eq_reading, pure_eq_reading, reading_bind]

theorem negate_eq_reading (ty : Ty) : negate ty = reading fun _ => do
    Use.negation.demand .truth ty
    return .truth := by
  unfold negate
  simp only [require_eq_reading, pure_eq_reading, reading_bind]

theorem print_eq_reading (ty : Ty) : print ty = reading fun _ =>
    if ty = .truth then throw (.unprintable .truth) else return () := by
  unfold print
  split <;> rfl

/-- A step that always gives a type. -/
theorem valueOf_some (t : Tree) (step : Survey Ty) :
    valueOf t (do return some (← step)) = step := by
  unfold valueOf
  simp only [bind_assoc, pure_bind, bind_pure]

/-! ## Steps of a survey that go through places -/

/-- If the step is tried, it leaves the kinds that the last declarations among the places give, and
adds the faults of the places. -/
def Surveys (step : Survey α) (ps : List Place) : Prop := ∀ σ,
  after (attempt step σ) = ⟨σ.kinds.after ps, σ.faults ++ Place.faults σ.kinds ps⟩

theorem surveys_pure (a : α) : Surveys (pure a) [] := by
  intro σ
  show σ = ⟨σ.kinds.after [], σ.faults ++ []⟩
  rw [Place.after_nil, List.append_nil]

/-- The look of a place that declares nothing. -/
theorem surveys_inspect {p : Place} (hk : ∀ x, p.kindFor? x = none) :
    Surveys (reading p.inspect) [p] := by
  intro σ
  rw [Place.after_single _ hk, Place.faults_single]
  unfold attempt reading Place.fault?
  cases p.inspect σ.kinds with
  | ok u => show σ = _; rw [Option.toList_none, List.append_nil]
  | error e => rfl

/-- What is given in the end makes no difference. -/
theorem Surveys.map {x : Survey α} {ps : List Place} (h : Surveys x ps) (b : β) :
    Surveys (x >>= fun _ => pure b) ps := by
  intro σ
  rw [← h σ]
  unfold attempt
  rw [bind_apply]
  cases x σ <;> rfl

/-- After a step that is tried, there is always the next one, and it knows what the first one has
declared. -/
theorem Surveys.next {x : Survey α} {f : Option α → Survey β} {ps qs : List Place}
    (hx : Surveys x ps) (hf : ∀ r, Surveys (f r) qs) : Surveys (attempt x >>= f) (ps ++ qs) := by
  intro σ
  obtain ⟨r, hr⟩ : ∃ r, (attempt x >>= f) σ = f r (after (attempt x σ)) := by
    rw [bind_apply]
    unfold attempt
    cases x σ <;> exact ⟨_, rfl⟩
  have hnext :
      after (attempt (attempt x >>= f) σ) = after (attempt (f r) (after (attempt x σ))) := by
    generalize attempt x >>= f = y at hr
    unfold attempt at hr ⊢
    rw [hr]
  rw [hnext, hx σ, hf r, Place.after_append, Place.faults_append, List.append_assoc]

end Survey

namespace Tree

open Survey Place

theorem typeIn_literal (Γ : Context) (l : Literal) : (mk l.node []).typeIn Γ = return .number := by
  cases l <;> exact typeIn.eq_def _ _

theorem typeIn_binary (Γ : Context) (op : Binary) (l r : Tree) :
    (mk op.node [l, r]).typeIn Γ = (do op.typeOf (← l.typeIn Γ) (← r.typeIn Γ)) := by
  cases op <;> exact typeIn.eq_def _ _

/-- The survey of an expression looks for its type. -/
theorem IsExpression.survey_eq {e : Tree} (h : e.IsExpression) :
    valueOf e e.survey = reading (typeIn · e) := by
  induction h with
  | name x =>
    have hs : (mk (.name x) []).survey = do return some (← (do
        let kind ← kindOf x
        return Lower.typeOf kind)) := by
      rw [survey]
      simp only [bind_assoc, pure_bind]
    rw [hs, valueOf_some]
    simp only [kindOf_eq_reading, pure_eq_reading, reading_bind]
    rfl
  | literal l =>
    simp only [survey_literal, typeIn_literal]
    rfl
  | text s =>
    rw [survey]
    rfl
  | @binary l r op _ _ ihl ihr =>
    have hs : (mk op.node [l, r]).survey = do return some (← (do
        let lhs ← valueOf l l.survey
        let rhs ← valueOf r r.survey
        Survey.binary op lhs rhs)) := by
      rw [survey_binary]
      simp only [bind_assoc]
    rw [hs, valueOf_some]
    simp only [ihl, ihr, binary_eq_reading, reading_bind, typeIn_binary]
  | @negate e _ ih =>
    have hs : (mk .negate [e]).survey = do return some (← (do
        let ty ← valueOf e e.survey
        Survey.negate ty)) := by
      rw [survey]
      simp only [bind_assoc]
    rw [hs, valueOf_some]
    simp only [ih, negate_eq_reading, reading_bind]
    rfl

/-! ## Statements -/

theorem IsExpression.places_eq {e : Tree} (h : e.IsExpression) : e.places = [] := by
  induction h with
  | name x => rfl
  | literal l => cases l <;> rfl
  | text s => rfl
  | binary op _ _ ihl ihr =>
    rw [places_mk, List.flatMap_cons, ihl, List.flatMap_singleton, ihr]; cases op <;> rfl
  | negate _ ih => rw [places_mk, List.flatMap_singleton, ih]; rfl

theorem places_next (t : Tree) (ts : List Tree) :
    (mk .block (t :: ts)).places = t.places ++ (mk .block ts).places := by
  rw [places_mk, places_mk, List.flatMap_cons]
  rfl

/-- A simple statement has one place, and its survey is the look of it. -/
theorem surveys_simple {t : Tree} (p : Place) (look : Survey Unit) (hp : t.places = [p])
    (hk : ∀ x, p.kindFor? x = none) (hs : t.survey = look >>= fun _ => pure none)
    (hl : look = reading p.inspect) : Surveys t.survey t.places := by
  rw [hs, hl, hp]
  exact (surveys_inspect hk).map none

theorem surveys_block {ts : List Tree} (h : ∀ t ∈ ts, Surveys t.survey t.places) :
    Surveys (mk .block ts).survey (mk .block ts).places := by
  rw [survey]
  generalize (none : Option Ty) = last
  induction ts generalizing last with
  | nil => rw [surveyAll]; exact surveys_pure last
  | cons t ts ih =>
    rw [surveyAll, places_next]
    exact (h t List.mem_cons_self).next fun ty =>
      ih (fun u hu => h u (List.mem_cons_of_mem t hu)) ty.join

theorem surveys_condition {c : Tree} (hc : c.IsExpression) :
    Surveys (condition (valueOf c c.survey)) [.test c] := by
  have hlook : condition (valueOf c c.survey) = reading (Place.test c).inspect := by
    unfold condition
    simp only [hc.survey_eq, require_eq_reading, reading_bind]
    rfl
  rw [hlook]
  exact surveys_inspect fun _ => rfl

/-- **The survey of a statement finds the faults of its places.** -/
theorem IsStatement.surveys {t : Tree} (h : t.IsStatement) : Surveys t.survey t.places := by
  induction h with
  | declare x kind =>
    intro σ
    rw [survey]
    show (⟨σ.kinds.declare x kind, σ.faults⟩ : Findings) =
      ⟨σ.kinds.after [.declaration x kind], σ.faults ++ faults σ.kinds [.declaration x kind]⟩
    rw [after_declaration, faults_single]
    show _ = (⟨_, σ.faults ++ []⟩ : Findings)
    rw [List.append_nil]
  | @assign e x he =>
    refine surveys_simple (.assignment x e) (valueOf e e.survey >>= Survey.store x) ?_
      (fun _ => rfl) ?_ ?_
    · rw [places_mk, List.flatMap_singleton, he.places_eq]
      rfl
    · rw [survey, bind_assoc]
    · rw [he.survey_eq, funext (store_eq_reading x), reading_bind]
      rfl
  | step k x =>
    refine surveys_simple (.step k x (mk (.name x) []))
      (valueOf (mk (.name x) []) (mk (.name x) []).survey >>= fun ty =>
        Survey.binary (.arithmetic k.op) ty .number >>= Survey.store x) ?_ (fun _ => rfl) ?_ ?_
    · cases k <;> rfl
    · simp only [bind_assoc]
      cases k <;> exact survey.eq_def _
    · simp only [(IsExpression.name x).survey_eq, funext (store_eq_reading x), binary_eq_reading,
        reading_bind]
      rfl
  | @print e he =>
    refine surveys_simple (.printing e) (valueOf e e.survey >>= Survey.print) ?_
      (fun _ => rfl) ?_ ?_
    · rw [places_mk, List.flatMap_singleton, he.places_eq]
      rfl
    · rw [survey, bind_assoc]
    · rw [he.survey_eq, funext print_eq_reading, reading_bind]
      rfl
  | @guarded c body g hc _ ih =>
    have hp :
        (mk g.node [c, mk .block body]).places = [.test c] ++ ((mk .block body).places ++ []) := by
      rw [places_mk, List.flatMap_cons, hc.places_eq, List.flatMap_singleton, List.append_nil]
      cases g <;> rfl
    rw [survey_guarded, hp]
    exact (surveys_condition hc).next fun _ => (surveys_block ih).next fun _ => surveys_pure none
  | @choice c yes no hc _ _ ihy ihn =>
    have hp : (mk .choice [c, mk .block yes, mk .block no]).places =
        [.test c] ++ ((mk .block yes).places ++ ((mk .block no).places ++ [])) := by
      rw [places_mk, List.flatMap_cons, hc.places_eq, List.flatMap_cons, List.flatMap_singleton,
        List.append_nil]
      rfl
    rw [survey, hp]
    exact (surveys_condition hc).next fun _ => (surveys_block ihy).next fun _ =>
      (surveys_block ihn).next fun _ => surveys_pure none

theorem IsProgram.surveys {t : Tree} (h : t.IsProgram) : Surveys t.survey t.places := by
  obtain ⟨body, rfl, hb⟩ := h
  have hp : (mk .program [mk .block body]).places = (mk .block body).places ++ [] := by
    rw [places_mk, List.flatMap_singleton, List.append_nil]
    rfl
  rw [survey, surveyAll, hp]
  refine (surveys_block fun u hu => (hb u hu).surveys).next fun ty => ?_
  rw [surveyAll]
  exact surveys_pure _

end Tree

/-! ## Whole programs -/

/-- The faults that lowering reports. -/
def Lowered.faults (l : Lowered) : List LoweringFault :=
  match l.result with
  | .ok _ => []
  | .error faults => faults

namespace Tree

open Place

theorem lowered_faults (t : Tree) : t.lower.faults = t.findings := by
  unfold Lowered.faults
  cases hr : t.lower.result with
  | error faults => exact eq_findings_of_lower hr
  | ok m =>
    by_cases hf : t.findings = []
    · exact hf.symm
    · rw [t.lower_result.2 hf] at hr
      cases hr

theorem exists_lowered_iff (t : Tree) : (∃ m, t.lower.result = .ok m) ↔ t.lower.faults = [] := by
  constructor
  · rintro ⟨m, hm⟩
    rw [Lowered.faults, hm]
  · rw [lowered_faults]
    exact t.lower_result.1

theorem IsProgram.faults_eq {t : Tree} (h : t.IsProgram) :
    t.lower.faults = faults .empty t.places := by
  rw [lowered_faults, findings, h.surveys]
  exact List.nil_append _

/-- **The faults of a program are those of its places, one after the other.** Each place has at most
one fault, which depends on the place and on the kinds that the last declarations before it give. So

* a program is lowered iff no place of it has a fault,
* and if another program has the places `other` where this one has `mid`, and these declare the
  same, then each has the faults of its own places there, and all faults before and after them are
  the same. -/
theorem lower_faults {source : String} {t : Tree} (hp : parseSource source = .ok t) :
    t.lower.faults = (List.range t.places.length).filterMap
      (foundAt? (fun earlier (p : Place) => p.fault? (lastKinds earlier)) t.places) ∧
    ((∃ m, t.lower.result = .ok m) ↔
      ∀ (i : Nat) (p : Place), t.places[i]? = some p →
        p.fault? (lastKinds (t.places.take i)) = none) ∧
    ∀ source' t' ps mid other qs, parseSource source' = .ok t' → t.places = ps ++ mid ++ qs →
      t'.places = ps ++ other ++ qs → lastKinds mid = lastKinds other →
        ∃ before after, t.lower.faults = before ++ faults (lastKinds ps) mid ++ after ∧
          t'.lower.faults = before ++ faults (lastKinds ps) other ++ after := by
  have hfaults := (parseSource_shape hp).faults_eq
  refine ⟨?_, ?_, ?_⟩
  · rw [hfaults]
    unfold faults foundIn
    simp only [after_empty]
  · rw [exists_lowered_iff, hfaults, faults, foundIn_eq_nil]
    simp only [foundAt?, after_empty, Option.bind_eq_none_iff]
  · intro source' t' ps mid other qs hp' ht ht' hkinds
    refine ⟨faults .empty ps, faults ((lastKinds ps).after mid) qs, ?_, ?_⟩
    · rw [hfaults, ht, faults_append, faults_append, after_append, after_empty]
    · rw [(parseSource_shape hp').faults_eq, ht', faults_append, faults_append, after_append,
        after_empty, after_congr _ hkinds]

/-- A loop while a variable is below one. Its body declares `x` again. -/
def loopBelow (y : String) : Tree :=
  mk .program [mk .block [mk (.declare "x" .number) [],
    mk .loop [mk (.compare .lt) [mk (.name y) [], mk (.integer 1) []],
      mk .block [mk (.declare "x" .text) [], mk (.increment "x") [mk (.name "x") []]]],
    mk .print [mk (.name "q") []]]]

/-- The condition on `y` is refused and that on `x` is not. Both loops have the same faults in the
body and after it. -/
theorem loopBelow_faults :
    parseSource "num x; while (y < 1) \x7b str x; x++; \x7d print q;" = .ok (loopBelow "y") ∧
    parseSource "num x; while (x < 1) \x7b str x; x++; \x7d print q;" = .ok (loopBelow "x") ∧
    (loopBelow "y").lower.faults =
      [.undeclared "y", .graph (.typeMismatch .arithmetic .number .pointer), .undeclared "q"] ∧
    ∃ before after, (loopBelow "y").lower.faults = before ++ [.undeclared "y"] ++ after ∧
      (loopBelow "x").lower.faults = before ++ [] ++ after := by
  have hy :
      parseSource "num x; while (y < 1) \x7b str x; x++; \x7d print q;" = .ok (loopBelow "y") := by
    decide +kernel
  have hx :
      parseSource "num x; while (x < 1) \x7b str x; x++; \x7d print q;" = .ok (loopBelow "x") := by
    decide +kernel
  obtain ⟨hfaults, -, hother⟩ := lower_faults hy
  exact ⟨hy, hx, hfaults.trans (by decide +kernel),
    hother _ _ [.declaration "x" .number] [.test _] [.test _] _ hx rfl rfl rfl⟩

end Tree

end FlowLang
