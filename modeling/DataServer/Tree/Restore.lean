import DataServer.Tree.Shadow

/-! Removing an intent restores the view. A tree, and the same tree with an owner's updates inserted
and then marked for deletion, are related by `Shadow`; deleted variants count for nothing in
branch values, so both trees resolve choices alike and `GetHighestPrecedence` agrees. -/
namespace DataServer

variable {P : LeafEntry → Prop}

mutual
theorem Entry.Every.mono {Q Q' : Entry → Prop} (hQ : ∀ e, Q e → Q' e) :
    ∀ e : Entry, e.Every Q → e.Every Q'
  | .mk _ cs _ _ _, ⟨he, hc⟩ => ⟨hQ _ he, Childs.Every.mono hQ cs hc⟩
theorem Childs.Every.mono {Q Q' : Entry → Prop} (hQ : ∀ e, Q e → Q' e) :
    ∀ cs : Childs, cs.Every Q → cs.Every Q'
  | .nil, _ => trivial
  | .cons _ e rest, ⟨he, hr⟩ => ⟨Entry.Every.mono hQ e he, Childs.Every.mono hQ rest hr⟩
end

theorem LeafVariants.getHighestPrecedenceValue_append_deleted (lv : LeafVariants) {x : LeafEntry}
    (hx : x.delete = true) : (lv ++ [x]).getHighestPrecedenceValue = lv.getHighestPrecedenceValue := by
  simp [getHighestPrecedenceValue, List.foldl_append, hx]

theorem ExtraVariant.getHighestPrecedenceValue (hP : ∀ x, P x → x.delete = true)
    {lv lv' : LeafVariants} (h : ExtraVariant P lv lv') :
    lv'.getHighestPrecedenceValue = lv.getHighestPrecedenceValue := by
  rcases h with rfl | ⟨x, rfl, hx⟩
  · rfl
  · exact lv.getHighestPrecedenceValue_append_deleted (hP x hx)

theorem Entry.getHighestPrecedenceValueOfBranch_ghostBase (e : Entry) :
    e.ghostBase.getHighestPrecedenceValueOfBranch = Int32.maxInt32 := by
  simp [ghostBase, getHighestPrecedenceValueOfBranch, Childs.getHighestPrecedenceValueOfBranch,
    LeafVariants.getHighestPrecedenceValue]

mutual
theorem Entry.Shadow.branchValue (hP : ∀ x, P x → x.delete = true) :
    ∀ (b e' : Entry), b.Shadow P e' →
      e'.getHighestPrecedenceValueOfBranch = b.getHighestPrecedenceValueOfBranch
  | .mk _ cs _ _ _, .mk _ cs' _ _ _, ⟨_, _, _, hc, hl⟩ => by
    simp only [Entry.getHighestPrecedenceValueOfBranch, Childs.Shadow.branchValue hP cs cs' hc,
      hl.getHighestPrecedenceValue hP, Entry.leafVariants_mk]
theorem Childs.Shadow.branchValue (hP : ∀ x, P x → x.delete = true) :
    ∀ (cs cs' : Childs), cs.Shadow P cs' → ∀ result,
      cs'.getHighestPrecedenceValueOfBranch result = cs.getHighestPrecedenceValueOfBranch result
  | _, .nil, h, _ => by rw [Childs.shadow_nil_iff.mp h]
  | .nil, .cons _ e' rest', ⟨hg, hr⟩, result => by
    simp only [Childs.getHighestPrecedenceValueOfBranch, Entry.Shadow.branchValue hP _ e' hg,
      Entry.getHighestPrecedenceValueOfBranch_ghostBase, if_neg (not_lt.mpr (Int32.le_maxInt32 result))]
    exact Childs.Shadow.branchValue hP .nil rest' hr result
  | .cons _ e rest, .cons _ e' rest', ⟨_, he, hr⟩, result => by
    simp only [Childs.getHighestPrecedenceValueOfBranch, Entry.Shadow.branchValue hP e e' he]
    exact Childs.Shadow.branchValue hP rest rest' hr _
end

namespace ChoiceCasesResolver

/-- Every element of every case satisfies `Q`. -/
def AllElements (Q : ChoicesCaseElement → Prop) (r : ChoiceCasesResolver) : Prop :=
  ∀ c ∈ r.cases, ∀ e ∈ c.elements, Q e

theorem allElements_setValue {Q : ChoicesCaseElement → Prop} {r : ChoiceCasesResolver} {n : String}
    {v : Int32} {new : Bool} (h : r.AllElements Q)
    (hQ : ∀ e, Q e → e.name = n → Q (if new then { e with new := v } else { e with old := v })) :
    (r.setValue n v new).AllElements Q := by
  intro c hc e he
  simp only [setValue, List.mem_map] at hc
  obtain ⟨c₀, hc₀, rfl⟩ := hc
  simp only [List.mem_map] at he
  obtain ⟨e₀, he₀, rfl⟩ := he
  by_cases hn : e₀.name = n
  · simpa only [hn, if_true] using hQ e₀ (h c₀ hc₀ e₀ he₀) hn
  · simpa only [hn, if_false] using h c₀ hc₀ e₀ he₀

theorem setValue_eq_self {r : ChoiceCasesResolver} {n : String} {v : Int32}
    (h : r.AllElements fun e => e.name = n → e.new = v) : r.setValue n v true = r := by
  obtain ⟨cases⟩ := r
  simp only [setValue, mk.injEq]
  conv_rhs => rw [← List.map_id cases]
  refine List.map_congr_left fun c hc => ?_
  obtain ⟨name, elements⟩ := c
  simp only [ChoicesCase.mk.injEq, id, true_and]
  conv_rhs => rw [← List.map_id elements]
  refine List.map_congr_left fun e he => ?_
  by_cases hn : e.name = n
  · obtain ⟨en, eo, enew⟩ := e
    simp only [if_pos hn, if_true, id, ChoicesCaseElement.mk.injEq, true_and]
    exact (h _ hc _ he hn).symm
  · simp [hn]

theorem allElements_foldl_addCase_of {Q : ChoicesCaseElement → Prop}
    (hQ : ∀ n, Q ⟨n, Int32.maxInt32, Int32.maxInt32⟩) :
    ∀ (cs : List (String × List String)) (r : ChoiceCasesResolver), r.AllElements Q →
      (cs.foldl (fun r (caseName, elements) => r.addCase caseName elements) r).AllElements Q
  | [], _, h => h
  | (caseName, elements) :: cs, r, h => by
    refine allElements_foldl_addCase_of hQ cs _ fun c hc e he => ?_
    simp only [addCase, List.mem_append, List.mem_singleton] at hc
    rcases hc with hc | rfl
    · exact h c hc e he
    · simp only [List.mem_map] at he
      obtain ⟨_, -, rfl⟩ := he
      exact hQ _

theorem allElements_foldl_addCase :
    ∀ (cs : List (String × List String)) (r : ChoiceCasesResolver),
      r.AllElements (·.new = Int32.maxInt32) →
        (cs.foldl (fun r (caseName, elements) => r.addCase caseName elements) r).AllElements
          (·.new = Int32.maxInt32) :=
  allElements_foldl_addCase_of (Q := (·.new = Int32.maxInt32)) fun _ => rfl

end ChoiceCasesResolver

theorem initChoiceCasesResolvers_of {Q : ChoicesCaseElement → Prop}
    (hQ : ∀ n, Q ⟨n, Int32.maxInt32, Int32.maxInt32⟩) {order : CaseOrder} {path : List String}
    {schema : Option SchemaElem} {name : String} {r : ChoiceCasesResolver}
    (h : (name, r) ∈ initChoiceCasesResolvers order path schema) : r.AllElements Q := by
  unfold initChoiceCasesResolvers at h
  rcases schema with _ | schema
  · cases h
  · simp only [List.mem_map] at h
    obtain ⟨⟨_, cs⟩, -, h⟩ := h
    cases h
    exact ChoiceCasesResolver.allElements_foldl_addCase_of hQ _ ⟨[]⟩ fun _ hc => absurd hc (List.not_mem_nil _)

theorem initChoiceCasesResolvers_new {order : CaseOrder} {path : List String}
    {schema : Option SchemaElem} {name : String} {r : ChoiceCasesResolver}
    (h : (name, r) ∈ initChoiceCasesResolvers order path schema) :
    r.AllElements (·.new = Int32.maxInt32) :=
  initChoiceCasesResolvers_of (Q := (·.new = Int32.maxInt32)) (fun _ => rfl) h

theorem Entry.skipElements_eq {e₁ e₂ : Entry} (hs : e₁.schema = e₂.schema)
    (hr : e₁.choicesResolvers = e₂.choicesResolvers) : e₁.skipElements = e₂.skipElements := by
  simp only [skipElements, hs, hr]

section Populate

variable (tc : TreeContext) (path : List String)

theorem populateElement_shadow (hP : ∀ x, P x → x.delete = true) {b e' : Entry} (hc : b.childs.Shadow P e'.childs)
    {cr : ChoiceCasesResolver} (n : String)
    (hinv : cr.AllElements fun el => b.childs.lookup el.name = none → el.new = Int32.maxInt32) :
    e'.populateElement tc path cr n = b.populateElement tc path cr n ∧
      (b.populateElement tc path cr n).AllElements
        fun el => b.childs.lookup el.name = none → el.new = Int32.maxInt32 := by
  set val := tc.getBranchesHighesPrecedence path (cacheUpdateFilterExcludeOwner tc.actualOwner)
  set cr₁ := if val < Int32.maxInt32 then cr.setValue n val false else cr with hcr₁
  have hinv₁ : cr₁.AllElements fun el => b.childs.lookup el.name = none → el.new = Int32.maxInt32 := by
    rw [hcr₁]
    split
    · exact ChoiceCasesResolver.allElements_setValue hinv fun e h _ => h
    · exact hinv
  have hstep : ∀ s : Entry, s.populateElement tc path cr n =
      match s.childs.lookup n with
      | some child => cr₁.setValue n child.getHighestPrecedenceValueOfBranch true
      | none => cr₁ := fun _ => rfl
  rw [hstep, hstep]
  cases hb : b.childs.lookup n with
  | some c =>
    obtain ⟨c', hc', hs⟩ := hc.lookup_some hb
    refine ⟨by simp only [hc', Entry.Shadow.branchValue hP c c' hs], ?_⟩
    exact ChoiceCasesResolver.allElements_setValue hinv₁ fun e _ he h => by simp [he, hb] at h
  | none =>
    refine ⟨?_, hinv₁⟩
    cases he' : e'.childs.lookup n with
    | none => rfl
    | some g =>
      rcases hc.lookup he' with ⟨_, hg, -⟩ | ⟨-, hg⟩
      · rw [hb] at hg; cases hg
      · simp only [Entry.Shadow.branchValue hP _ g hg, Entry.getHighestPrecedenceValueOfBranch_ghostBase]
        exact ChoiceCasesResolver.setValue_eq_self fun c hc el hel hn => hinv₁ c hc el hel (hn ▸ hb)

theorem foldl_populateElement_shadow (hP : ∀ x, P x → x.delete = true) {b e' : Entry} (hc : b.childs.Shadow P e'.childs) :
    ∀ (names : List String) (cr : ChoiceCasesResolver),
      cr.AllElements (fun el => b.childs.lookup el.name = none → el.new = Int32.maxInt32) →
        names.foldl (e'.populateElement tc path) cr = names.foldl (b.populateElement tc path) cr
  | [], _, _ => rfl
  | n :: names, cr, hinv => by
    obtain ⟨heq, hinv'⟩ := populateElement_shadow tc path hP hc n hinv
    rw [List.foldl_cons, List.foldl_cons, heq]
    exact foldl_populateElement_shadow hP hc names _ hinv'

theorem Entry.Shadow.populatedResolvers (hP : ∀ x, P x → x.delete = true) {b e' : Entry} (h : b.Shadow P e') (hf : b.ResolversFresh) :
    e'.populatedResolvers tc path = b.populatedResolvers tc path := by
  obtain ⟨-, -, hr, hc, -⟩ := Entry.shadow_iff.mp h
  unfold Entry.populatedResolvers
  rw [← hr]
  refine List.map_congr_left fun ⟨name, cr⟩ hmem => ?_
  obtain ⟨_, _, hf⟩ := hf
  have hfresh := initChoiceCasesResolvers_new (hf ▸ hmem)
  simp only [Prod.mk.injEq, true_and]
  exact foldl_populateElement_shadow tc path hP hc _ cr fun c hc el hel _ => hfresh c hc el hel

theorem Entry.Shadow.populateChoiceCaseResolvers (hP : ∀ x, P x → x.delete = true) {b e' : Entry} (h : b.Shadow P e')
    (hf : b.ResolversFresh) :
    (b.populateChoiceCaseResolvers tc path).Shadow P (e'.populateChoiceCaseResolvers tc path) := by
  obtain ⟨hn, hs, hr, hc, hl⟩ := Entry.shadow_iff.mp h
  unfold Entry.populateChoiceCaseResolvers
  rw [← hs]
  cases b.schema with
  | none => exact h
  | some _ =>
    exact Entry.shadow_iff.mpr ⟨hn, hs, (Entry.Shadow.populatedResolvers tc path hP h hf).symm, hc, hl⟩

end Populate

theorem Entry.populateChoiceCaseResolvers_schema (tc : TreeContext) (path : List String) (e : Entry) :
    (e.populateChoiceCaseResolvers tc path).schema = e.schema := by
  unfold populateChoiceCaseResolvers; split <;> rfl

theorem Entry.finishInsertionPhase_mk_eq (tc : TreeContext) (path : List String) (e : Entry) :
    e.finishInsertionPhase tc path = .mk e.pathElemName
      (e.childs.finishInsertionPhase tc path (e.populateChoiceCaseResolvers tc path).skipElements)
      e.leafVariants e.schema (e.populateChoiceCaseResolvers tc path).choicesResolvers := by
  cases e; rfl

mutual
theorem Entry.Shadow.finishInsertionPhase (hP : ∀ x, P x → x.delete = true) (tc : TreeContext) :
    ∀ (path : List String) (b e' : Entry), b.Shadow P e' → e'.Every Entry.ResolversFresh →
      (b.finishInsertionPhase tc path).Shadow P (e'.finishInsertionPhase tc path)
  | path, .mk n cs lv s r, .mk n' cs' lv' s' r', h, hf => by
    obtain ⟨hn, hs, hr, hc, hl⟩ := id h
    have hfb : (Entry.mk n cs lv s r).ResolversFresh := by
      simpa [Entry.ResolversFresh, hs, hr] using (Entry.every_iff.mp hf).1
    obtain ⟨-, hps, hpr, -, -⟩ :=
      Entry.shadow_iff.mp (Entry.Shadow.populateChoiceCaseResolvers tc path hP h hfb)
    rw [Entry.finishInsertionPhase_mk_eq, Entry.finishInsertionPhase_mk_eq tc path (.mk n' cs' lv' s' r'),
      Entry.skipElements_eq hps hpr]
    exact ⟨hn, hs, hpr, Childs.Shadow.finishInsertionPhase hP tc path _ cs cs' hc (Entry.every_iff.mp hf).2, hl⟩
theorem Childs.Shadow.finishInsertionPhase (hP : ∀ x, P x → x.delete = true) (tc : TreeContext) :
    ∀ (path skip : List String) (cs cs' : Childs), cs.Shadow P cs' →
      cs'.Every Entry.ResolversFresh →
        (cs.finishInsertionPhase tc path skip).Shadow P (cs'.finishInsertionPhase tc path skip)
  | _, _, _, .nil, h, _ => by rw [Childs.shadow_nil_iff.mp h]; rfl
  | path, skip, .nil, .cons k' g rest', ⟨hg, hr⟩, ⟨hfg, hfr⟩ => by
    refine ⟨?_, Childs.Shadow.finishInsertionPhase hP tc path skip .nil rest' hr hfr⟩
    split
    · exact hg
    · have h := Entry.Shadow.finishInsertionPhase hP tc (path ++ [g.pathElemName]) _ g hg hfg
      exact Entry.eq_ghostBase_of_shadow (by rfl) (by rfl) h ▸ h
  | path, skip, .cons k e rest, .cons k' e' rest', ⟨hk, he, hr⟩, ⟨hfe, hfr⟩ => by
    subst hk
    refine ⟨rfl, ?_, Childs.Shadow.finishInsertionPhase hP tc path skip rest rest' hr hfr⟩
    split
    · exact he
    · rw [(Entry.shadow_iff.mp he).1]
      exact Entry.Shadow.finishInsertionPhase hP tc _ e e' he hfe
end

mutual
theorem Entry.every_finishInsertionPhase {R : LeafVariants → Prop} (tc : TreeContext) :
    ∀ (path : List String) (e : Entry), e.Every (fun e => R e.leafVariants) →
      (e.finishInsertionPhase tc path).Every fun e => R e.leafVariants
  | path, .mk _ cs _ _ _, ⟨he, hc⟩ => ⟨he, Childs.every_finishInsertionPhase tc path _ cs hc⟩
theorem Childs.every_finishInsertionPhase {R : LeafVariants → Prop} (tc : TreeContext) :
    ∀ (path skip : List String) (cs : Childs),
      cs.Every (fun e => R e.leafVariants) →
        (cs.finishInsertionPhase tc path skip).Every fun e => R e.leafVariants
  | _, _, .nil, _ => trivial
  | path, skip, .cons k c rest, ⟨hc, hr⟩ => by
    refine ⟨?_, Childs.every_finishInsertionPhase tc path skip rest hr⟩
    split
    · exact hc
    · exact Entry.every_finishInsertionPhase tc _ c hc
end

theorem LeafVariants.getHighestPrecedence_append_deleted {lv : LeafVariants} {x : LeafEntry}
    (hlive : ∀ l ∈ lv, l.delete = false ∧ l.owner ≠ runningIntentName) (hx : x.delete = true) :
    (lv ++ [x]).getHighestPrecedence false = lv.getHighestPrecedence false := by
  rcases lv with _ | ⟨a, rest⟩
  · by_cases hrun : x.owner = runningIntentName <;>
      simp [getHighestPrecedence, shouldDelete, selectStep, hx, hrun]
  · have hsd := shouldDelete_eq_false_of_live (List.mem_cons_self a rest) (hlive a (by simp)).1
      (hlive a (by simp)).2
    have hsd' : LeafVariants.shouldDelete ((a :: rest) ++ [x]) = false :=
      shouldDelete_eq_false_of_live (by simp) (hlive a (by simp)).1 (hlive a (by simp)).2
    have hinv := selectInv_scan (a :: rest)
    rcases hscan : (a :: rest).foldl selectStep (none, none) with ⟨_ | h, s⟩
    · rw [hscan] at hinv
      rcases s with _ | _
      · cases hinv
      · exact hinv.elim
    · rw [hscan] at hinv
      obtain ⟨pre, post, hlv, -⟩ := hinv
      have hh : h.delete = false := (hlive h (by rw [hlv]; simp)).1
      simp only [getHighestPrecedence, List.length_append, List.length_cons, hsd, hsd',
        List.foldl_append, hscan, List.foldl_cons, List.foldl_nil, selectStep]
      by_cases hlt : x.priority < h.priority
      · simp [hlt, hx, hh]
      · rcases s with _ | s
        · simp [hlt, hh]
        · by_cases hs : x.priority < s.priority <;> simp [hlt, hs, hh]

theorem ExtraVariant.getHighestPrecedence (hP : ∀ x, P x → x.delete = true) {lv lv' : LeafVariants}
    (hlive : ∀ l ∈ lv, l.delete = false ∧ l.owner ≠ runningIntentName) (h : ExtraVariant P lv lv') :
    lv'.getHighestPrecedence false = lv.getHighestPrecedence false := by
  rcases h with rfl | ⟨x, rfl, hx⟩
  · rfl
  · exact LeafVariants.getHighestPrecedence_append_deleted hlive (hP x hx)

theorem Entry.getHighestPrecedence_ghostBase (b : Bool) (result : List Update) (e : Entry) :
    e.ghostBase.getHighestPrecedence b result = result := by
  simp [ghostBase, getHighestPrecedence, Childs.getHighestPrecedence, LeafVariants.getHighestPrecedence]

mutual
theorem Entry.Shadow.getHighestPrecedence (hP : ∀ x, P x → x.delete = true) :
    ∀ (b e' : Entry), b.Shadow P e' →
      b.Every (fun e => ∀ l ∈ e.leafVariants, l.delete = false ∧ l.owner ≠ runningIntentName) →
        ∀ result, e'.getHighestPrecedence false result = b.getHighestPrecedence false result
  | .mk n cs lv s r, .mk n' cs' lv' s' r', ⟨_, hs, hr, hc, hl⟩, hb, result => by
    have hlv : lv'.getHighestPrecedence false = lv.getHighestPrecedence false :=
      hl.getHighestPrecedence hP (Entry.every_iff.mp hb).1
    have hskip : (Entry.mk n' cs' lv' s' r').skipElements = (Entry.mk n cs lv s r).skipElements :=
      (@Entry.skipElements_eq (.mk n cs lv s r) (.mk n' cs' lv' s' r') hs hr).symm
    simp only [Entry.getHighestPrecedence, hlv, hskip]
    exact Childs.Shadow.getHighestPrecedence hP cs cs' hc (Entry.every_iff.mp hb).2 _ _
theorem Childs.Shadow.getHighestPrecedence (hP : ∀ x, P x → x.delete = true) :
    ∀ (cs cs' : Childs), cs.Shadow P cs' →
      cs.Every (fun e => ∀ l ∈ e.leafVariants, l.delete = false ∧ l.owner ≠ runningIntentName) →
        ∀ skip result, cs'.getHighestPrecedence false skip result = cs.getHighestPrecedence false skip result
  | _, .nil, h, _, _, _ => by rw [Childs.shadow_nil_iff.mp h]
  | .nil, .cons _ g rest', ⟨hg, hr⟩, _, skip, result => by
    simp only [Childs.getHighestPrecedence,
      Entry.Shadow.getHighestPrecedence hP _ g hg (Entry.every_ghostBase g),
      Entry.getHighestPrecedence_ghostBase, ite_self]
    exact Childs.Shadow.getHighestPrecedence hP .nil rest' hr trivial skip result
  | .cons _ e rest, .cons _ e' rest', ⟨hk, he, hr⟩, ⟨hbe, hbr⟩, skip, result => by
    subst hk
    simp only [Childs.getHighestPrecedence, Entry.Shadow.getHighestPrecedence hP e e' he hbe]
    exact Childs.Shadow.getHighestPrecedence hP rest rest' hr hbr skip _
end

theorem Entry.Shadow.getAt : ∀ (p : List String) {b e' : Entry}, b.Shadow P e' → ∀ {E : Entry},
    b.getAt p = some E → ∃ E', e'.getAt p = some E' ∧ E.Shadow P E'
  | [], _, e', h, _, hE => ⟨e', rfl, by cases hE; exact h⟩
  | k :: p, b, e', h, E, hE => by
    simp only [Entry.getAt] at hE
    cases hk : b.childs.lookup k with
    | none => simp [hk] at hE
    | some c =>
      rw [hk, Option.some_bind] at hE
      obtain ⟨c', hc', hs⟩ := (Entry.shadow_iff.mp h).2.2.2.1.lookup_some hk
      obtain ⟨E', hE', hsE⟩ := Entry.Shadow.getAt p hs hE
      exact ⟨E', by simp [Entry.getAt, hc', hE'], hsE⟩

/-- Removing an intent restores the view: inserting `o`'s updates into a tree the code builds, whose
variants are live and neither `running`'s nor `o`'s, then `MarkOwnerDelete(o)`, gives after
`FinishInsertionPhase` the same `GetHighestPrecedence(false)` and, at every entry of the tree,
the same resolvers. -/
theorem removing_intent_restores_view {tc : TreeContext} {t t'' : Entry} {o : String}
    {us : List Update} (ht : Reachable tc t)
    (hlive : t.Every fun e => ∀ l ∈ e.leafVariants,
      l.delete = false ∧ l.owner ≠ runningIntentName ∧ l.owner ≠ o)
    (hus : ∀ u ∈ us, u.owner = o) (hins : addCacheUpdates tc true t us = .ok t'') :
    rootGetHighestPrecedence (rootFinishInsertionPhase tc (t''.markOwnerDelete o)) false =
        rootGetHighestPrecedence (rootFinishInsertionPhase tc t) false ∧
      ∀ p E, (rootFinishInsertionPhase tc t).getAt p = some E →
        ∃ E', (rootFinishInsertionPhase tc (t''.markOwnerDelete o)).getAt p = some E' ∧
          E'.choicesResolvers = E.choicesResolvers := by
  have hno := Entry.Every.mono (fun _ h l hl => (h l hl).2.2) t hlive
  have hsh := Entry.shadow_markOwnerDelete t t'' hno
    (shadow_addCacheUpdates hno hus (Entry.Shadow.refl t) hins)
  have hfin := Entry.Shadow.finishInsertionPhase (fun _ h => h.2) tc [] t _ hsh
    ((ht.addCacheUpdates hins).markOwnerDelete o).every_fresh
  have hlive₀ : t.Every fun e => ∀ l ∈ e.leafVariants, l.delete = false ∧ l.owner ≠ runningIntentName :=
    Entry.Every.mono (fun _ h l hl => ⟨(h l hl).1, (h l hl).2.1⟩) t hlive
  have hlive' := Entry.every_finishInsertionPhase
    (R := fun lv => ∀ l ∈ lv, l.delete = false ∧ l.owner ≠ runningIntentName) tc [] t hlive₀
  refine ⟨Entry.Shadow.getHighestPrecedence (fun _ h => h.2) _ _ hfin hlive' [], fun p E hE => ?_⟩
  obtain ⟨E', hE', hs⟩ := hfin.getAt p hE
  exact ⟨E', hE', (Entry.shadow_iff.mp hs).2.2.1.symm⟩

def restoreBase : Entry :=
  buildTree sampleContext (.mk "" .nil [] (some sampleContainer) [])
    [.addCacheUpdate ⟨["a", "b"], [1], 20, "owner2"⟩ false]

def restoreUpdates : List Update := [⟨["a", "b"], [2], 10, "owner1"⟩, ⟨["c", "d"], [3], 10, "owner1"⟩]

def restoreInserted : Entry :=
  buildTree sampleContext restoreBase (restoreUpdates.map (TreeOp.addCacheUpdate · true))

theorem removing_intent_restores_view_sample :
    Reachable sampleContext restoreBase ∧
      (restoreBase.Every fun e => ∀ l ∈ e.leafVariants,
        l.delete = false ∧ l.owner ≠ runningIntentName ∧ l.owner ≠ "owner1") ∧
      (∀ u ∈ restoreUpdates, u.owner = "owner1") ∧
      addCacheUpdates sampleContext true restoreBase restoreUpdates = .ok restoreInserted ∧
      (rootGetHighestPrecedence
          (rootFinishInsertionPhase sampleContext (restoreInserted.markOwnerDelete "owner1")) false =
          rootGetHighestPrecedence (rootFinishInsertionPhase sampleContext restoreBase) false ∧
        ∀ p E, (rootFinishInsertionPhase sampleContext restoreBase).getAt p = some E →
          ∃ E', (rootFinishInsertionPhase sampleContext
              (restoreInserted.markOwnerDelete "owner1")).getAt p = some E' ∧
            E'.choicesResolvers = E.choicesResolvers) :=
  have hbase : Reachable sampleContext restoreBase := ⟨_, _, rfl, rfl⟩
  have hlive : restoreBase.Every fun e => ∀ l ∈ e.leafVariants,
      l.delete = false ∧ l.owner ≠ runningIntentName ∧ l.owner ≠ "owner1" := by decide
  have howner : ∀ u ∈ restoreUpdates, u.owner = "owner1" := by decide
  have hins : addCacheUpdates sampleContext true restoreBase restoreUpdates = .ok restoreInserted := rfl
  ⟨hbase, hlive, howner, hins, removing_intent_restores_view hbase hlive howner hins⟩

/-- In the sample, `owner2`'s value is what the device gets back once `owner1`'s intent is gone. -/
example : rootGetHighestPrecedence
    (rootFinishInsertionPhase sampleContext (restoreInserted.markOwnerDelete "owner1")) false =
      [⟨["a", "b"], [1], 20, "owner2"⟩] := by
  decide

/-- A container with one choice `ch` of two cases, `caseA` holding `x` and `caseB` holding `y`. -/
def choiceSchema : SchemaElem :=
  ⟨some (.container ⟨[], [], false, [("ch", [("caseA", ["x"]), ("caseB", ["y"])])]⟩)⟩

/-- The cases in the reverse of the schema's order, one of the orders a build may draw. -/
def CaseOrder.reversed : CaseOrder := ⟨fun _ _ cases => cases.reverse, fun _ _ _ => List.reverse_perm _⟩

/-- A device whose container `c`, below a root without choices, has the choice of `choiceSchema`,
everything else a string leaf; the intent applied is `owner2`'s, and the build visits the cases
in `order`. -/
def tieContext (order : CaseOrder) : TreeContext where
  getSchema p := .ok (some (if p = [] then sampleContainer else if p = ["c"] then choiceSchema
    else ⟨some (.field ⟨"string", ""⟩)⟩))
  actualOwner := "owner2"
  storeIndex := []
  caseOrder := order

/-- New values of `owner1` at `c/x` and `c/y` with one priority: the two cases tie. -/
def tieUpdates : List (Update × Bool) :=
  [(⟨["c", "x"], [1], 10, "owner1"⟩, true), (⟨["c", "y"], [2], 10, "owner1"⟩, true)]

/-- The tree of those values, built in the case order `order`. -/
def tieTree (order : CaseOrder) : Entry :=
  buildTree (tieContext order) (.mk "" .nil [] (some sampleContainer) [])
    (tieUpdates.map fun x => .addCacheUpdate x.1 x.2)

/-- Two builds of one tree that draw different case orders. Inserting an intent of `owner2` at `z`
into the build where `caseB` comes first and removing it gives `c/y`, where the build in the
schema's order gives `c/x`. -/
theorem removing_intent_view_depends_on_case_order :
    Reachable (tieContext .schema) (tieTree .schema) ∧ Reachable (tieContext .reversed) (tieTree .reversed) ∧
      ((tieTree .reversed).Every fun e => ∀ l ∈ e.leafVariants,
        l.delete = false ∧ l.owner ≠ runningIntentName ∧ l.owner ≠ "owner2") ∧
      (addCacheUpdates (tieContext .reversed) true (tieTree .reversed) [⟨["z"], [3], 5, "owner2"⟩]).map
          (fun t => rootGetHighestPrecedence
            (rootFinishInsertionPhase (tieContext .reversed) (t.markOwnerDelete "owner2")) false) =
        .ok [⟨["c", "y"], [2], 10, "owner1"⟩] ∧
      rootGetHighestPrecedence (rootFinishInsertionPhase (tieContext .schema) (tieTree .schema)) false =
        [⟨["c", "x"], [1], 10, "owner1"⟩] :=
  ⟨⟨_, _, rfl, rfl⟩, ⟨_, _, rfl, rfl⟩, by decide, by decide, by decide⟩

end DataServer
