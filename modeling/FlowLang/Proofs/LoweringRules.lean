import FlowLang.Proofs.LoweringGrowth

/-!
# The rules of lowering

`Tree.Lowers t s v s'`: lowering `t` takes `s` to `s'` without any fault and gives the value `v`.
There is one rule for each form of tree.

* `Tree.follows`: every run of `Tree.lowerNode` that records no fault follows the rules.
* `Tree.Lowers.grows`: along the rules a lowering only grows.
* `Tree.lower_eq_ok`: a module comes from a derivation that starts at the block `entry`, with the
  end of the last block.

What holds of all lowered programs is proved by induction on the rules.
-/

namespace FlowLang

namespace Tree

/-- Lowering `t` takes `s` to `s'` without fault and gives `v`. -/
inductive Lowers : Tree → Lowering → Option Value → Lowering → Prop
  | nothing {s : Lowering} : Lowers (mk .block []) s none s
  | last {t : Tree} {s s' : Lowering} {v : Option Value} (h : Lowers t s v s') :
      Lowers (mk .block [t]) s v s'
  | next {t u : Tree} {ts : List Tree} {s s₁ s₂ : Lowering} {v w : Option Value}
      (h : Lowers t s v s₁) (hs : Lowers (mk .block (u :: ts)) s₁ w s₂) :
      Lowers (mk .block (t :: u :: ts)) s w s₂
  | program {ts : List Tree} {s s' : Lowering} {v : Option Value}
      (h : Lowers (mk .block ts) s v s') : Lowers (mk .program ts) s v s'
  | name {x : String} {s : Lowering} {binding : Binding} {entry : Slot} {v : Value} {b : Builder}
      (hx : s.scope.lookup? x = some binding)
      (he : s.builder.graph.slots[binding.slot]? = some entry) (hv : v.ty = entry.ty)
      (hd : s.builder.Defines v (.load v binding.slot) b) :
      Lowers (mk (.name x) []) s (some v) { s with builder := b }
  | literal {l : Literal} {s : Lowering} {v : Value} {b : Builder} (hv : v.ty = .number)
      (hd : s.builder.Defines v (.constant v l.value) b) :
      Lowers (mk l.node []) s (some v) { s with builder := b }
  | text {text : String} {s : Lowering} {v : Value} {b : Builder} (hv : v.ty = .pointer)
      (hd : s.builder.Defines v (.string v (s.interner.intern text).1) b) :
      Lowers (mk (.text text) []) s (some v)
        { s with interner := (s.interner.intern text).2, builder := b }
  | declare {x : String} {kind : Kind} {s s₁ : Lowering} {v : Value} {b : Builder}
      (h : Lowers kind.first s (some v) s₁) (hv : v.ty = Lower.typeOf kind)
      (he : (s₁.builder.addSlot ⟨x, Lower.typeOf kind⟩).Emits
        (.store s₁.builder.graph.slots.length v) b) :
      Lowers (mk (.declare x kind) []) s none { s₁ with
        builder := b
        scope := s₁.scope.declare x ⟨s₁.builder.graph.slots.length, kind⟩ }
  | assign {x : String} {e : Tree} {s s₁ : Lowering} {v : Value} {binding : Binding} {entry : Slot}
      {b : Builder} (h : Lowers e s (some v) s₁) (hx : s₁.scope.lookup? x = some binding)
      (hs : s₁.builder.graph.slots[binding.slot]? = some entry) (hv : v.ty = entry.ty)
      (he : s₁.builder.Emits (.store binding.slot v) b) :
      Lowers (mk (.assign x) [e]) s none { s₁ with builder := b }
  | step {k : Step} {x : String} {e : Tree} {s s' : Lowering} {v : Option Value}
      (h : Lowers (stepped k x e) s v s') : Lowers (mk (k.node x) [e]) s v s'
  | print {e : Tree} {s s₁ : Lowering} {v : Value} {callee : Printer} {b : Builder}
      (h : Lowers e s (some v) s₁) (hv : v.ty = callee.parameter)
      (he : s₁.builder.Emits (.call callee [v]) b) :
      Lowers (mk .print [e]) s none { s₁ with builder := b }
  | binary {op : Binary} {l r : Tree} {s s₁ s₂ : Lowering} {lhs rhs v : Value} {b : Builder}
      (hl : Lowers l s (some lhs) s₁) (hr : Lowers r s₁ (some rhs) s₂) (tl : lhs.ty = op.operand)
      (tr : rhs.ty = op.operand) (hv : v.ty = op.result)
      (hd : s₂.builder.Defines v (op.instr v lhs rhs) b) :
      Lowers (mk op.node [l, r]) s (some v) { s₂ with builder := b }
  | negate {e : Tree} {s s₁ : Lowering} {operand v : Value} {b : Builder}
      (h : Lowers e s (some operand) s₁) (ht : operand.ty = .truth) (hv : v.ty = .truth)
      (hd : s₁.builder.Defines v (.negate v operand) b) :
      Lowers (mk .negate [e]) s (some v) { s₁ with builder := b }
  | guarded {g : Guard} {c body : Tree} {s s₁ s₂ : Lowering} {n : Nat} {v : Value}
      {w : Option Value} {b₁ b₂ b₃ : Builder} (hn : s.builder.graph.blocks.length = n)
      (h₁ : (s.fork (loopLabels s.nextLabel)).builder.Switches (.jump n) n b₁)
      (hc : Lowers c { s.fork (loopLabels s.nextLabel) with builder := b₁ } (some v) s₁)
      (hv : v.ty = .truth) (h₂ : s₁.builder.Switches (.branch v (n + 1) (n + 2)) (n + 1) b₂)
      (hb : Lowers body { s₁ with builder := b₂ } w s₂)
      (h₃ : s₂.builder.Switches (.jump (g.exit n)) (n + 2) b₃) :
      Lowers (mk g.node [c, body]) s none { s₂ with builder := b₃ }
  | choice {c yes no : Tree} {s s₁ s₂ s₃ : Lowering} {n : Nat} {v : Value} {w w' : Option Value}
      {b₁ b₂ b₃ b₄ : Builder} (hn : s.builder.graph.blocks.length = n)
      (h₁ : (s.fork (choiceLabels s.nextLabel)).builder.Switches (.jump n) n b₁)
      (hc : Lowers c { s.fork (choiceLabels s.nextLabel) with builder := b₁ } (some v) s₁)
      (hv : v.ty = .truth) (h₂ : s₁.builder.Switches (.branch v (n + 1) (n + 2)) (n + 1) b₂)
      (hy : Lowers yes { s₁ with builder := b₂ } w s₂)
      (h₃ : s₂.builder.Switches (.jump (n + 3)) (n + 2) b₃)
      (hno : Lowers no { s₂ with builder := b₃ } w' s₃)
      (h₄ : s₃.builder.Switches (.jump (n + 3)) (n + 3) b₄) :
      Lowers (mk .choice [c, yes, no]) s none { s₃ with builder := b₄ }

/-! ## Faultless runs -/

open Lower

/-- Every faultless run of `t` from an open insertion point follows the rules. -/
def Follows (t : Tree) : Prop := ∀ (s : Lowering) (i : Nat) (v : Option Value) (s' : Lowering),
  s.builder.OpenAt i → t.lowerNode s = .ok v s' → s'.faults = s.faults → t.Lowers s v s'

/-- A step that was tried and recorded nothing has succeeded. -/
theorem attempt_faultless {α : Type} {step : Lower Nat α} (hk : Keeps step) {s s' : Lowering}
    {i : Nat} {r : Option α} (hi : s.builder.OpenAt i) (h : attempt step s = .ok r s')
    (hf : s'.faults = s.faults) : ∃ a, r = some a ∧ step s = .ok a s' := by
  have hl := hk s i hi
  unfold attempt at h
  cases hs : step s with
  | ok a s₁ =>
    rw [hs] at h
    cases h
    exact ⟨a, rfl, rfl⟩
  | error e s₁ =>
    rw [hs] at h hl
    cases h
    exact absurd hf (hl.toGrows.ne_fault e)

theorem lowers_block {ts : List Tree} (ih : ∀ t ∈ ts, Follows t) {s s' : Lowering} {i : Nat}
    {last v : Option Value} (hl : ts = [] → last = none) (hi : s.builder.OpenAt i)
    (h : lowerAll last ts s = .ok v s') (hf : s'.faults = s.faults) :
    (mk .block ts).Lowers s v s' := by
  induction ts generalizing last s i with
  | nil =>
    rw [lowerAll] at h
    obtain ⟨rfl, rfl⟩ := pure_eq_ok.mp h
    rw [hl rfl]
    exact .nothing
  | cons t ts iht =>
    rw [lowerAll] at h
    obtain ⟨r, s₁, h₁, h₂⟩ := bind_eq_ok.mp h
    have hk₁ := (keeps_attempt t.lowerNode_keeps).of_ok hi h₁
    obtain ⟨i₁, hi₁, -⟩ := hk₁.framed i hi
    have hk₂ := (keeps_lowerAll (fun t _ => t.lowerNode_keeps) r.join).of_ok hi₁ h₂
    have hf₁ := hk₁.toGrows.faults_eq hk₂.toGrows hf
    obtain ⟨w, rfl, hw⟩ := attempt_faultless t.lowerNode_keeps hi h₁ hf₁
    have ht := ih t List.mem_cons_self s i w s₁ hi hw hf₁
    cases ts with
    | nil =>
      rw [lowerAll] at h₂
      obtain ⟨rfl, rfl⟩ := pure_eq_ok.mp h₂
      exact .last ht
    | cons u ts =>
      refine .next ht (iht (fun u hu => ih u (List.mem_cons_of_mem t hu)) ?_ hi₁ h₂ ?_)
      · rintro ⟨⟩
      · exact hf.trans hf₁.symm

/-- **Every run of lowering that records no fault follows the rules.** -/
theorem follows (t : Tree) : Follows t := by
  induction t using form_induct with
  | program ts ih =>
    intro s i v s' hi h hf
    rw [lowerNode] at h
    exact .program (lowers_block ih (fun _ => rfl) hi h hf)
  | block ts ih =>
    intro s i v s' hi h hf
    rw [lowerNode] at h
    exact lowers_block ih (fun _ => rfl) hi h hf
  | name x =>
    intro s i v s' hi h hf
    rw [lowerNode] at h
    obtain ⟨v, s₁, hload, h⟩ := bind_eq_ok.mp h
    obtain ⟨rfl, rfl⟩ := pure_eq_ok.mp h
    obtain ⟨slot, s₂, hslot, hbuild⟩ := bind_eq_ok.mp hload
    obtain ⟨binding, hx, rfl, rfl⟩ := slotOf_eq_ok.mp hslot
    obtain ⟨b, hb, rfl⟩ := build_eq_ok.mp hbuild
    obtain ⟨entry, he, hv, hd⟩ := Build.load_eq_ok.mp hb
    exact .name hx he hv hd
  | literal l =>
    intro s i v s' hi h hf
    rw [lowerNode_literal] at h
    obtain ⟨v, s₁, hbuild, h⟩ := bind_eq_ok.mp h
    obtain ⟨rfl, rfl⟩ := pure_eq_ok.mp h
    obtain ⟨b, hb, rfl⟩ := build_eq_ok.mp hbuild
    obtain ⟨hv, hd⟩ := Build.constant_eq_ok.mp hb
    exact .literal hv hd
  | text text =>
    intro s i v s' hi h hf
    rw [lowerNode] at h
    obtain ⟨v, s₁, hbuild, h⟩ := bind_eq_ok.mp h
    obtain ⟨rfl, rfl⟩ := pure_eq_ok.mp h
    rw [stringConstant_apply] at hbuild
    obtain ⟨b, hb, rfl⟩ := build_eq_ok.mp hbuild
    obtain ⟨hv, hd⟩ := Build.string_eq_ok.mp hb
    exact .text hv hd
  | declare x kind ih =>
    intro s i v s' hi h hf
    rw [lowerNode_declare] at h
    obtain ⟨u, s₁, hu, h⟩ := bind_eq_ok.mp h
    obtain ⟨slot, s₂, hslot, h⟩ := bind_eq_ok.mp h
    obtain ⟨b₂, hb, rfl⟩ := build_eq_ok.mp hslot
    cases hb
    obtain ⟨_, s₃, hstore, h⟩ := bind_eq_ok.mp h
    obtain ⟨b, hb, rfl⟩ := build_eq_ok.mp hstore
    obtain ⟨entry, he, hv, hemit⟩ := Build.store_eq_ok.mp hb
    obtain rfl : ⟨x, typeOf kind⟩ = entry :=
      Option.some.inj (List.getElem?_concat_length.symm.trans he)
    cases h
    exact .declare (ih s i _ s₁ hi (valueOf_eq_ok.mp hu) hf) hv hemit
  | assign x e ih =>
    intro s i v s' hi h hf
    rw [lowerNode] at h
    obtain ⟨u, s₁, hu, h⟩ := bind_eq_ok.mp h
    obtain ⟨_, s₂, hstore, h⟩ := bind_eq_ok.mp h
    obtain ⟨rfl, rfl⟩ := pure_eq_ok.mp h
    obtain ⟨slot, s₃, hslot, hbuild⟩ := bind_eq_ok.mp hstore
    obtain ⟨binding, hx, rfl, rfl⟩ := slotOf_eq_ok.mp hslot
    obtain ⟨b, hb, rfl⟩ := build_eq_ok.mp hbuild
    obtain ⟨entry, hs, hv, he⟩ := Build.store_eq_ok.mp hb
    exact .assign (ih s i _ _ hi (valueOf_eq_ok.mp hu) hf) hx hs hv he
  | step k x e ih =>
    intro s i v s' hi h hf
    rw [lowerNode_step] at h
    exact .step (ih s i v s' hi h hf)
  | print e ih =>
    intro s i v s' hi h hf
    rw [lowerNode] at h
    obtain ⟨u, s₁, hu, h⟩ := bind_eq_ok.mp h
    obtain ⟨_, s₂, hprint, h⟩ := bind_eq_ok.mp h
    obtain ⟨rfl, rfl⟩ := pure_eq_ok.mp h
    obtain ⟨callee, hcall⟩ : ∃ callee, build (.call callee u) s₁ = .ok () s' := by
      unfold print at hprint
      cases hty : u.ty with
      | number => rw [hty] at hprint; exact ⟨.number, hprint⟩
      | pointer => rw [hty] at hprint; exact ⟨.text, hprint⟩
      | truth => rw [hty] at hprint; cases hprint
    obtain ⟨b, hb, rfl⟩ := build_eq_ok.mp hcall
    obtain ⟨hv, he⟩ := Build.call_eq_ok.mp hb
    exact .print (ih s i _ s₁ hi (valueOf_eq_ok.mp hu) hf) hv he
  | binary op l r ihl ihr =>
    intro s i v s' hi h hf
    rw [lowerNode_binary] at h
    obtain ⟨lhs, s₁, hl, h⟩ := bind_eq_ok.mp h
    obtain ⟨rhs, s₂, hr, h⟩ := bind_eq_ok.mp h
    obtain ⟨v, s₃, hbuild, h⟩ := bind_eq_ok.mp h
    obtain ⟨rfl, rfl⟩ := pure_eq_ok.mp h
    obtain ⟨b, hb, rfl⟩ := build_eq_ok.mp hbuild
    obtain ⟨tl, tr, hv, hd⟩ := Build.checked_eq_ok.mp hb
    rw [valueOf_eq_ok] at hl hr
    have hk₁ := l.lowerNode_keeps.of_ok hi hl
    obtain ⟨i₁, hi₁, -⟩ := hk₁.framed i hi
    have hk₂ := r.lowerNode_keeps.of_ok hi₁ hr
    have hf₁ := hk₁.toGrows.faults_eq hk₂.toGrows hf
    exact .binary (ihl s i _ s₁ hi hl hf₁) (ihr s₁ i₁ _ s₂ hi₁ hr (hf.trans hf₁.symm)) tl tr hv hd
  | negate e ih =>
    intro s i v s' hi h hf
    rw [lowerNode] at h
    obtain ⟨u, s₁, hu, h⟩ := bind_eq_ok.mp h
    obtain ⟨v, s₂, hbuild, h⟩ := bind_eq_ok.mp h
    obtain ⟨rfl, rfl⟩ := pure_eq_ok.mp h
    obtain ⟨b, hb, rfl⟩ := build_eq_ok.mp hbuild
    obtain ⟨ht, hv, hd⟩ := Build.negate_eq_ok.mp hb
    exact .negate (ih s i _ s₁ hi (valueOf_eq_ok.mp hu) hf) ht hv hd
  | guarded g c body ihc ihb =>
    intro s i v s' hi h hf
    obtain ⟨b₁, r, s₁, t, b₂, r', s₂, b₃, h₁, a₁, h₂, a₂, h₃, he, -, hv⟩ := lowerGuarded_leads
      c.lowerNode_keeps body.lowerNode_keeps hi (loopLabels s.nextLabel) rfl rfl
      (g.exit_lt s.builder.graph.blocks.length)
    rw [lowerNode_guarded, he] at h
    cases h
    have hcond := (keeps_valueOf c c.lowerNode_keeps).bind fun v => keeps_require .branch v .truth
    have g₁ := ((keeps_attempt hcond).of_ok h₁.openAt a₁).toGrows
    have g₂ := ((keeps_attempt body.lowerNode_keeps).of_ok h₂.openAt a₂).toGrows
    have f₁ : s₁.faults = s.faults := g₁.faults_eq ((Lowering.grows_of_switches h₂).trans g₂) hf
    obtain ⟨u, rfl, -⟩ := attempt_faultless hcond h₁.openAt a₁ f₁
    obtain ⟨w, e₁, hw, rfl⟩ := hv u rfl
    obtain ⟨w', -, e₂⟩ := attempt_faultless body.lowerNode_keeps h₂.openAt a₂ (hf.trans f₁.symm)
    exact .guarded rfl h₁ (ihc _ _ _ _ h₁.openAt e₁ f₁) hw h₂
      (ihb _ _ _ _ h₂.openAt e₂ (hf.trans f₁.symm)) h₃
  | choice c yes no ihc ihy ihn =>
    intro s i v s' hi h hf
    obtain ⟨b₁, r, s₁, t, b₂, r', s₂, b₃, r'', s₃, b₄, h₁, a₁, h₂, a₂, h₃, a₃, h₄, he, -, hv⟩ :=
      lowerChoice_leads c.lowerNode_keeps yes.lowerNode_keeps no.lowerNode_keeps hi
        (choiceLabels s.nextLabel) rfl rfl
    rw [lowerNode_choice, he] at h
    cases h
    have hcond := (keeps_valueOf c c.lowerNode_keeps).bind fun v => keeps_require .branch v .truth
    have g₁ := ((keeps_attempt hcond).of_ok h₁.openAt a₁).toGrows
    have g₂ := (Lowering.grows_of_switches h₂).trans
      ((keeps_attempt yes.lowerNode_keeps).of_ok h₂.openAt a₂).toGrows
    have g₃ := (Lowering.grows_of_switches h₃).trans
      ((keeps_attempt no.lowerNode_keeps).of_ok h₃.openAt a₃).toGrows
    have f₁ : s₁.faults = s.faults := g₁.faults_eq (g₂.trans g₃) hf
    have f₂ : s₂.faults = s.faults := (g₁.trans g₂).faults_eq g₃ hf
    obtain ⟨u, rfl, -⟩ := attempt_faultless hcond h₁.openAt a₁ f₁
    obtain ⟨w, e₁, hw, rfl⟩ := hv u rfl
    obtain ⟨w', -, e₂⟩ := attempt_faultless yes.lowerNode_keeps h₂.openAt a₂ (f₂.trans f₁.symm)
    obtain ⟨w'', -, e₃⟩ := attempt_faultless no.lowerNode_keeps h₃.openAt a₃ (hf.trans f₂.symm)
    exact .choice rfl h₁ (ihc _ _ _ _ h₁.openAt e₁ f₁) hw h₂
      (ihy _ _ _ _ h₂.openAt e₂ (f₂.trans f₁.symm)) h₃
      (ihn _ _ _ _ h₃.openAt e₃ (hf.trans f₂.symm)) h₄
  | irregular n ts k hk hl =>
    intro s i v s' hi h hf
    rw [lowerNode_irregular hk hl] at h
    cases h

/-! ## Growth along the rules -/

theorem Lowers.grows {t : Tree} {s s' : Lowering} {v : Option Value} (h : t.Lowers s v s') :
    s.Grows s' := by
  induction h with
  | nothing => exact .refl _
  | last _ ih => exact ih
  | next _ _ ih ihs => exact ih.trans ihs
  | program _ ih => exact ih
  | name _ _ _ hd => exact (Lowering.leads_of_adds (.defines hd)).toGrows
  | literal _ hd => exact (Lowering.leads_of_adds (.defines hd)).toGrows
  | text _ hd =>
    exact ((leads_intern _ _).trans (Lowering.leads_of_adds (.defines hd))).toGrows
  | declare _ _ he ih => exact ih.trans (leads_bindSlot he).toGrows
  | assign _ _ _ _ he ih => exact ih.trans (Lowering.leads_of_adds (.emits he)).toGrows
  | step _ ih => exact ih
  | print _ _ he ih => exact ih.trans (Lowering.leads_of_adds (.emits he)).toGrows
  | binary _ _ _ _ _ hd ihl ihr =>
    exact (ihl.trans ihr).trans (Lowering.leads_of_adds (.defines hd)).toGrows
  | negate _ _ _ hd ih => exact ih.trans (Lowering.leads_of_adds (.defines hd)).toGrows
  | guarded _ h₁ _ _ h₂ _ h₃ ihc ihb =>
    exact (((((Lowering.grows_fork _ _).trans (Lowering.grows_of_switches h₁)).trans ihc).trans
      (Lowering.grows_of_switches h₂)).trans ihb).trans (Lowering.grows_of_switches h₃)
  | choice _ h₁ _ _ h₂ _ h₃ _ h₄ ihc ihy ihn =>
    exact (((((((Lowering.grows_fork _ _).trans (Lowering.grows_of_switches h₁)).trans ihc).trans
      (Lowering.grows_of_switches h₂)).trans ihy).trans (Lowering.grows_of_switches h₃)).trans
      ihn).trans (Lowering.grows_of_switches h₄)

/-- The routine keeps its name. -/
theorem Lowers.graph_name {t : Tree} {s s' : Lowering} {v : Option Value} (h : t.Lowers s v s') :
    s'.builder.graph.name = s.builder.graph.name := by
  induction h with
  | nothing => rfl
  | last _ ih => exact ih
  | next _ _ ih ihs => exact ihs.trans ih
  | program _ ih => exact ih
  | name _ _ _ hd => exact hd.name
  | literal _ hd => exact hd.name
  | text _ hd => exact hd.name
  | declare _ _ he ih => exact he.name.trans ih
  | assign _ _ _ _ he ih => exact he.name.trans ih
  | step _ ih => exact ih
  | print _ _ he ih => exact he.name.trans ih
  | binary _ _ _ _ _ hd ihl ihr => exact hd.name.trans (ihr.trans ihl)
  | negate _ _ _ hd ih => exact hd.name.trans ih
  | guarded _ h₁ _ _ h₂ _ h₃ ihc ihb =>
    exact h₃.name.trans (ihb.trans (h₂.name.trans (ihc.trans h₁.name)))
  | choice _ h₁ _ _ h₂ _ h₃ _ h₄ ihc ihy ihn =>
    exact h₄.name.trans (ihn.trans (h₃.name.trans (ihy.trans (h₂.name.trans (ihc.trans h₁.name)))))

/-- The value of a tree is one of those defined so far. -/
theorem Lowers.value_lt {t : Tree} {s s' : Lowering} {v : Option Value} (h : t.Lowers s v s') :
    ∀ u, v = some u → u.index < s'.builder.nextValue := by
  induction h with
  | nothing => nofun
  | last _ ih => exact ih
  | next _ _ _ ihs => exact ihs
  | program _ ih => exact ih
  | name _ _ _ hd => rintro _ ⟨⟩; exact hd.index_lt
  | literal _ hd => rintro _ ⟨⟩; exact hd.index_lt
  | text _ hd => rintro _ ⟨⟩; exact hd.index_lt
  | declare => nofun
  | assign => nofun
  | step _ ih => exact ih
  | print => nofun
  | binary _ _ _ _ _ hd => rintro _ ⟨⟩; exact hd.index_lt
  | negate _ _ _ hd => rintro _ ⟨⟩; exact hd.index_lt
  | guarded => nofun
  | choice => nofun

/-! ## Whole programs -/

/-- **A module comes from a derivation** that starts at the block `entry` and ends with a return. -/
theorem lower_eq_ok {t : Tree} {m : Module} (h : t.lower.result = .ok m) : ∃ v s b,
    t.Lowers .entry v s ∧ s.builder.Ends (.ret 0) b ∧ m = ⟨"emj", s.strings, b.graph⟩ ∧
    t.lower.scope = s.scope := by
  obtain ⟨v, s, i, ha, hl, hi, hp⟩ := t.lowerProgram_apply
  have hlower :
      t.lower = ⟨{ s with builder := s.builder.close i (.ret 0) : Lowering }.finish, s.scope⟩ := by
    unfold lower
    rw [hp]
  rw [hlower] at h
  unfold Lowering.finish at h
  split at h
  · rename_i hf
    have hfault : s.faults = Lowering.entry.faults := List.isEmpty_iff.mp hf
    obtain ⟨w, -, hw⟩ := attempt_faultless t.lowerNode_keeps Lowering.entry_openAt ha hfault
    refine ⟨w, s, _, t.follows _ _ _ _ Lowering.entry_openAt hw hfault,
      ends_of_openAt hi fun j hj => by (cases hj), ?_, by rw [hlower]⟩
    split at h
    · cases h
      rfl
    · cases h
  · cases h

end Tree

end FlowLang
