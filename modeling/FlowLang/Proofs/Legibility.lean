import FlowLang.Proofs.Listing
import FlowLang.Proofs.DefinitionOrder

/-!
# Listings of compiled modules

What is compiled (`compile`) is legible, so its listing says all about it.

* `Builder.Legible`: what is built so far is of the right types, and its constants can be read from
  their texts. Every rule of lowering keeps this (`Tree.Lowers.legible`), if the tree can be
  written.
* `Tree.lower_legible`: the labels that lowering makes are different words, and the names of slots
  are names of the tree.
* **`compile_listing_inj`**: of two sources that are compiled, equal listings mean equal modules.
-/

namespace FlowLang

/-! ## Constants -/

/-- A number that is read from a source is no NaN of unusual bits. -/
theorem Lexeme.Writable.canonical {x : Binary64} (h : (Lexeme.real x).Writable) : x.Canonical := by
  obtain ⟨whole, places, -, -, -, rfl⟩ := h
  exact Binary64.ofFloat_canonical _

namespace Tree

theorem Writable.literal {l : Literal} (h : (mk l.node []).Writable) : l.value.Canonical := by
  cases l with
  | real x => exact (h.root rfl).canonical
  | integer n => exact Binary64.ofFloat_canonical _

/-- The first value of a variable could be written in its place. -/
theorem writable_first (kind : Kind) : kind.first.Writable := by
  have hzero : (Lexeme.real .zero).Writable :=
    ⟨['0'], [], by simp, by simp, by simp, by decide +kernel⟩
  cases kind with
  | number => simp [Kind.first, writable_mk, Node.lexeme?, hzero]
  | text => simp [Kind.first, writable_mk, Node.lexeme?, Lexeme.Writable]

theorem Writable.stepped {k : Step} {x : String} {e : Tree} (h : (mk (k.node x) [e]).Writable) :
    (stepped k x e).Writable := by
  have hone : (Lexeme.real .one).Writable :=
    ⟨['1'], [], by simp, by simp, by simp, by decide +kernel⟩
  have hx : (Lexeme.name x).Writable := h.root (by cases k <;> rfl)
  have he : e.Writable := h.child List.mem_cons_self
  simp [Tree.stepped, writable_mk, Node.lexeme?, hone, hx, he]

end Tree

/-! ## What is built -/

namespace Builder

/-- What is built so far is of the right types, and its constants can be read from their texts. -/
structure Legible (b : Builder) : Prop where
  instrs : ∀ ins ∈ b.graph.instrs, ins.Suits b.graph.slots ∧ ∀ x ∈ ins.constant?, x.Canonical
  exits : ∀ t ∈ b.graph.exits, ∀ v ∈ t.reads, v.ty = .truth

namespace Legible

variable {b b' : Builder} {ins : Instr}

theorem push {i n : Nat} (h : b.Legible) (hi : b.OpenAt i) (hs : ins.Suits b.graph.slots)
    (hc : ∀ x ∈ ins.constant?, x.Canonical) : { b.push i ins with nextValue := n }.Legible := by
  obtain ⟨block, hb, -⟩ := hi.2
  refine ⟨fun ins' hins => ?_, fun t ht => h.exits t ((exits_push hb ins).mem_iff.mp ht)⟩
  rcases List.mem_cons.mp ((instrs_push hb ins).mem_iff.mp hins) with rfl | hold
  · exact ⟨hs, hc⟩
  · exact h.instrs ins' hold

theorem emits (h : b.Legible) (he : b.Emits ins b') (hs : ins.Suits b.graph.slots)
    (hc : ∀ x ∈ ins.constant?, x.Canonical) : b'.Legible := by
  obtain ⟨i, hi, rfl⟩ := he
  exact h.push hi hs hc

theorem defines {v : Value} (h : b.Legible) (hd : b.Defines v ins b') (hs : ins.Suits b.graph.slots)
    (hc : ∀ x ∈ ins.constant?, x.Canonical) : b'.Legible := by
  obtain ⟨-, i, hi, rfl⟩ := hd
  exact h.push hi hs hc

theorem ends {t : Terminator} (h : b.Legible) (he : b.Ends t b')
    (ht : ∀ v ∈ t.reads, v.ty = .truth) : b'.Legible := by
  obtain ⟨-, i, ⟨-, block, hb, ho⟩, rfl⟩ := he
  refine ⟨fun ins hins => h.instrs ins ((instrs_close hb t).mem_iff.mp hins), fun t' ht' => ?_⟩
  rcases List.mem_cons.mp ((exits_close hb ho t).mem_iff.mp ht') with rfl | hold
  · exact ht
  · exact h.exits t' hold

theorem switches {t : Terminator} {k : Nat} (h : b.Legible) (hs : b.Switches t k b')
    (ht : ∀ v ∈ t.reads, v.ty = .truth) : b'.Legible := by
  obtain ⟨b₁, he, -, rfl⟩ := hs
  have h₁ := h.ends he ht
  exact ⟨h₁.instrs, h₁.exits⟩

theorem addBlocks (h : b.Legible) (labels : List String) : (b.addBlocks labels).Legible := by
  refine ⟨fun ins hins => ?_, fun t ht => ?_⟩
  · rw [instrs_addBlocks] at hins
    exact h.instrs ins hins
  · rw [exits_addBlocks] at ht
    exact h.exits t ht

theorem addSlot (h : b.Legible) (slot : Slot) : (b.addSlot slot).Legible :=
  ⟨fun ins hins => ⟨(h.instrs ins hins).1.mono (List.prefix_append _ _), (h.instrs ins hins).2⟩,
    h.exits⟩

end Legible

end Builder

namespace Tree

/-- **Lowering keeps code legible.** -/
theorem Lowers.legible {t : Tree} {s s' : Lowering} {v : Option Value} (h : t.Lowers s v s')
    (hw : t.Writable) (hb : s.builder.Legible) : s'.builder.Legible := by
  induction h with
  | nothing => exact hb
  | last _ ih => exact ih (hw.child (by simp)) hb
  | next _ _ ih ihs =>
    obtain ⟨hnode, hchildren⟩ := writable_mk.mp hw
    obtain ⟨hfirst, hrest⟩ := List.forall_mem_cons.mp hchildren
    exact ihs (writable_mk.mpr ⟨hnode, hrest⟩) (ih hfirst hb)
  | program _ ih => exact ih (writable_mk.mpr ⟨by simp [Node.lexeme?], (writable_mk.mp hw).2⟩) hb
  | name _ he hv hd =>
    exact hb.defines hd (fun _ hp _ => ⟨_, getElem?_of_isPrefix hp he, hv⟩)
      (by simp [Instr.constant?])
  | literal hv hd =>
    exact hb.defines hd (fun _ _ _ => hv) (by simpa [Instr.constant?] using hw.literal)
  | text hv hd =>
    refine hb.defines hd (fun _ _ hid => ⟨hv, hid _ ?_⟩) (by simp [Instr.constant?])
    simp [Instr.strings]
  | @declare x kind _ _ _ _ _ hv he ih =>
    refine ((ih (writable_first kind) hb).addSlot _).emits he (fun m hp _ => ?_)
      (by simp [Instr.constant?])
    exact ⟨_, getElem?_of_isPrefix hp List.getElem?_concat_length, hv⟩
  | assign _ _ hs hv he ih =>
    exact (ih (hw.child (by simp)) hb).emits he (fun _ hp _ => ⟨_, getElem?_of_isPrefix hp hs, hv⟩)
      (by simp [Instr.constant?])
  | step _ ih => exact ih hw.stepped hb
  | print _ hv he ih =>
    exact (ih (hw.child (by simp)) hb).emits he (fun _ _ _ => ⟨_, rfl, hv⟩)
      (by simp [Instr.constant?])
  | @binary op _ _ _ _ _ _ _ _ _ _ _ tl tr hv hd ihl ihr =>
    have hr := ihr (hw.child (by simp)) (ihl (hw.child (by simp)) hb)
    refine hr.defines hd (fun _ _ _ => Binary.wellFormed_instr tl tr hv) ?_
    cases op <;> simp [Binary.instr, Instr.constant?]
  | negate _ ht hv hd ih =>
    exact (ih (hw.child (by simp)) hb).defines hd (fun _ _ _ => ⟨hv, ht⟩)
      (by simp [Instr.constant?])
  | guarded _ h₁ _ hv h₂ _ h₃ ihc ihb =>
    have hc := ihc (hw.child (by simp)) ((hb.addBlocks _).switches h₁ (by simp [Terminator.reads]))
    have hbody := ihb (hw.child (by simp)) (hc.switches h₂ (by simpa [Terminator.reads] using hv))
    exact hbody.switches h₃ (by simp [Terminator.reads])
  | choice _ h₁ _ hv h₂ _ h₃ _ h₄ ihc ihy ihn =>
    have hc := ihc (hw.child (by simp)) ((hb.addBlocks _).switches h₁ (by simp [Terminator.reads]))
    have hyes := ihy (hw.child (by simp)) (hc.switches h₂ (by simpa [Terminator.reads] using hv))
    have hno := ihn (hw.child (by simp)) (hyes.switches h₃ (by simp [Terminator.reads]))
    exact hno.switches h₄ (by simp [Terminator.reads])

theorem entry_legible : Lowering.entry.builder.Legible :=
  ⟨List.forall_mem_nil _, List.forall_mem_nil _⟩

theorem mem_names_of_mem_declared {t : Tree} {x : String} (h : x ∈ t.declared) : x ∈ t.names := by
  obtain ⟨u, hu, hx⟩ := List.mem_filterMap.mp h
  obtain ⟨kind, hnode⟩ := Node.declares?_eq_some hx
  exact List.mem_filterMap.mpr ⟨u, hu, by rw [hnode]; rfl⟩

/-! ## Labels -/

theorem solid_of_mem_labels {t : Tree} {m : Module} (h : t.lower.result = .ok m) :
    m.graph.labels.Nodup ∧ ∀ label ∈ m.graph.labels, Solid label := by
  rw [(lower_layout h).1]
  refine ⟨List.nodup_cons.mpr ⟨Control.entry_not_mem_layout _ _, Control.nodup_layout _ _⟩,
    List.forall_mem_cons.mpr ⟨by simp [Solid, OneLine], List.forall_mem_map.mpr fun p hp => ?_⟩⟩
  obtain ⟨stem, hs, j, -, hp⟩ := Control.exists_of_mem_layout hp
  rw [hp]
  simp only [Control.stems, List.mem_cons, List.not_mem_nil, or_false] at hs
  rcases hs with rfl | rfl | rfl | rfl | rfl <;> simp [Solid, OneLine, toString]

/-! ## Whole programs -/

/-- The module of a tree that can be written is legible. -/
theorem lower_legible {t : Tree} {m : Module} (h : t.lower.result = .ok m) (hw : t.Writable) :
    m.Legible := by
  have hverified := lower_verified h
  obtain ⟨hnodup, hsolid⟩ := solid_of_mem_labels h
  obtain ⟨v, s, b, hlow, hends, rfl, -⟩ := lower_eq_ok h
  have hlegible := (hlow.legible hw entry_legible).ends hends (by simp [Terminator.reads])
  have hordered := (hlow.inOrder entry_inOrder).ends hends (by simp [Terminator.reads])
  refine ⟨by simp [OneLine], ?_, fun slot hslot => ?_, fun block hblock => ?_, hnodup,
    fun ins hins => ?_, fun block hblock => ?_⟩
  · show OneLine b.graph.name
    rw [hends.name, hlow.graph_name, show Lowering.entry.builder.graph.name = "main" from rfl]
    simp [OneLine]
  · have hname : slot.name ∈ t.declared := by
      have hnames := hlow.slot_names
      rw [← hends.slots, show Lowering.entry.builder.graph.slots = [] from rfl, List.map_nil,
        List.nil_append] at hnames
      exact hnames ▸ List.mem_map_of_mem hslot
    exact (hw.name (mem_names_of_mem_declared hname)).oneLine
  · exact hsolid _ (List.mem_map_of_mem hblock)
  · obtain ⟨hsuits, hconstant⟩ := hlegible.instrs ins hins
    obtain ⟨i, block, hi, hmem⟩ := Graph.mem_instrs.mp hins
    obtain ⟨j, hj⟩ := List.mem_iff_getElem?.mp hmem
    have hstrings := hordered.strings i j ins (Graph.instrAt?_eq_some.mpr ⟨block, hi, hj⟩)
    exact ⟨hsuits _ (List.prefix_refl _) hstrings, hconstant⟩
  · obtain ⟨t, ht, htargets⟩ := Graph.verify_eq_ok.mp hverified block hblock
    exact ⟨t, ht, hlegible.exits t (Graph.mem_exits hblock ht), htargets⟩

end Tree

/-- What is compiled is legible. -/
theorem compile_legible {source : String} {m : Module} (h : compile source = .ok m) :
    m.Legible := by
  obtain ⟨t, ht, hm⟩ := except_bind_eq_ok.mp h
  exact Tree.lower_legible (Tree.compile_eq_ok.mp hm).2 (parseSource_writable ht)

/-- **The listing of what is compiled says all about it.** If two sources are compiled and the
listings are equal, then the modules are equal: strings, slots, blocks, instructions with the types
of their values, and terminators. -/
theorem compile_listing_inj {source source' : String} {m m' : Module} (h : compile source = .ok m)
    (h' : compile source' = .ok m') (hl : m.listing = m'.listing) : m = m' :=
  (compile_legible h).eq_of_listing (compile_legible h') hl

/-- Half of a number, counted down to zero. -/
def halved : String := "num x; x = 6.50 / 2; while (x > 0) \x7b x--; \x7d print x;"

/-- The same with more parentheses and fewer places. -/
def halvedAgain : String := "num x; x = (6.5) / 2; while ((x) > 0) \x7b x--; \x7d print (x);"

theorem halved_listing_inj :
    ∃ m m', compile halved = .ok m ∧ compile halvedAgain = .ok m' ∧ m = m' := by
  obtain ⟨m, hm⟩ := exists_of_isOk (x := compile halved) (by decide +kernel)
  obtain ⟨m', hm'⟩ := exists_of_isOk (x := compile halvedAgain) (by decide +kernel)
  have hl : (compile halved).map Module.listing = (compile halvedAgain).map Module.listing := by
    decide +kernel
  rw [hm, hm'] at hl
  exact ⟨m, m', hm, hm', compile_listing_inj hm hm' (Except.ok.inj hl)⟩

end FlowLang
