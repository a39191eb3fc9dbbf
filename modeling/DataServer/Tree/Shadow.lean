import DataServer.Tree.Frame

/-! A tree next to the same tree with an owner's intent inserted: every entry keeps its attributes
and children and gains at most one variant, at the end. The relation is kept by every insert of
the owner and by `MarkOwnerDelete`. -/
namespace DataServer

/-- `lv'` is `lv`, or `lv` with one more variant at the end, which satisfies `P`. -/
def ExtraVariant (P : LeafEntry → Prop) (lv lv' : LeafVariants) : Prop :=
  lv' = lv ∨ ∃ x, lv' = lv ++ [x] ∧ P x

/-- The entry an added branch is compared to: the same name, schema and resolvers, and nothing under
it. -/
def Entry.ghostBase (e : Entry) : Entry := .mk e.pathElemName .nil [] e.schema e.choicesResolvers

mutual
/-- `e'` is `e` with variants satisfying `P` added: the same name, schema and resolvers, an extra
variant at most, and the children related in turn. -/
def Entry.Shadow (P : LeafEntry → Prop) (e : Entry) : Entry → Prop
  | .mk n' cs' lv' s' r' => e.pathElemName = n' ∧ e.schema = s' ∧ e.choicesResolvers = r' ∧
      Childs.Shadow P e.childs cs' ∧ ExtraVariant P e.leafVariants lv'
/-- The children of `e'` are those of `e`, related in order, followed by added branches. -/
def Childs.Shadow (P : LeafEntry → Prop) : Childs → Childs → Prop
  | cs, .nil => cs = .nil
  | .nil, .cons _ e' rest' => Entry.Shadow P e'.ghostBase e' ∧ Childs.Shadow P .nil rest'
  | .cons k e rest, .cons k' e' rest' => k = k' ∧ Entry.Shadow P e e' ∧ Childs.Shadow P rest rest'
end

mutual
/-- Every entry of the branch satisfies `Q`. -/
def Entry.Every (Q : Entry → Prop) : Entry → Prop
  | e@(.mk _ cs _ _ _) => Q e ∧ cs.Every Q
def Childs.Every (Q : Entry → Prop) : Childs → Prop
  | .nil => True
  | .cons _ e rest => e.Every Q ∧ rest.Every Q
end

mutual
/-- `Every` is decided entry by entry, so it can be checked on a concrete tree. -/
def Entry.decidableEvery (Q : Entry → Prop) [DecidablePred Q] : (e : Entry) → Decidable (e.Every Q)
  | .mk n cs lv s r =>
    @instDecidableAnd _ _ (inferInstanceAs (Decidable (Q (.mk n cs lv s r)))) (Childs.decidableEvery Q cs)
def Childs.decidableEvery (Q : Entry → Prop) [DecidablePred Q] : (cs : Childs) → Decidable (cs.Every Q)
  | .nil => instDecidableTrue
  | .cons _ e rest => @instDecidableAnd _ _ (Entry.decidableEvery Q e) (Childs.decidableEvery Q rest)
end

instance (Q : Entry → Prop) [DecidablePred Q] (e : Entry) : Decidable (e.Every Q) :=
  Entry.decidableEvery Q e

variable {P : LeafEntry → Prop}

namespace Entry

theorem shadow_iff {e e' : Entry} :
    e.Shadow P e' ↔ e.pathElemName = e'.pathElemName ∧ e.schema = e'.schema ∧
      e.choicesResolvers = e'.choicesResolvers ∧ e.childs.Shadow P e'.childs ∧
      ExtraVariant P e.leafVariants e'.leafVariants := by
  cases e'; rfl

theorem every_iff {Q : Entry → Prop} {e : Entry} : e.Every Q ↔ Q e ∧ e.childs.Every Q := by
  cases e; rfl

@[simp] theorem pathElemName_ghostBase (e : Entry) : e.ghostBase.pathElemName = e.pathElemName := rfl
@[simp] theorem childs_ghostBase (e : Entry) : e.ghostBase.childs = .nil := rfl
@[simp] theorem leafVariants_ghostBase (e : Entry) : e.ghostBase.leafVariants = [] := rfl
@[simp] theorem schema_ghostBase (e : Entry) : e.ghostBase.schema = e.schema := rfl
@[simp] theorem choicesResolvers_ghostBase (e : Entry) :
    e.ghostBase.choicesResolvers = e.choicesResolvers := rfl

theorem eq_ghostBase_of_shadow {b e' : Entry} (hc : b.childs = .nil) (hl : b.leafVariants = [])
    (h : b.Shadow P e') : b = e'.ghostBase := by
  obtain ⟨hn, hs, hr, -, -⟩ := shadow_iff.mp h
  obtain ⟨n, cs, lv, s, r⟩ := b
  simp only [childs_mk, leafVariants_mk] at hc hl
  subst hc hl
  simp_all [ghostBase]

theorem every_ghostBase {R : LeafEntry → Prop} (e : Entry) :
    e.ghostBase.Every fun e => ∀ l ∈ e.leafVariants, R l :=
  ⟨by simp, trivial⟩

end Entry

theorem Childs.shadow_nil_iff {cs : Childs} : cs.Shadow P .nil ↔ cs = .nil := by
  cases cs <;> simp [Childs.Shadow]

mutual
theorem Entry.Shadow.refl : ∀ e : Entry, e.Shadow P e
  | .mk _ cs _ _ _ => ⟨rfl, rfl, rfl, Childs.Shadow.refl cs, .inl rfl⟩
theorem Childs.Shadow.refl : ∀ cs : Childs, cs.Shadow P cs
  | .nil => rfl
  | .cons _ e rest => ⟨rfl, Entry.Shadow.refl e, Childs.Shadow.refl rest⟩
end

namespace Childs

theorem Every.lookup {Q : Entry → Prop} {k : String} {e : Entry} :
    ∀ {cs : Childs}, cs.Every Q → cs.lookup k = some e → e.Every Q
  | .nil, _, h => by simp [Childs.lookup] at h
  | .cons k' e' rest, ⟨he, hr⟩, h => by
    simp only [Childs.lookup] at h
    split at h
    · cases h; exact he
    · exact Every.lookup hr h

theorem Every.insert {Q : Entry → Prop} {k : String} {e : Entry} (he : e.Every Q) :
    ∀ {cs : Childs}, cs.Every Q → (cs.insert k e).Every Q
  | .nil, _ => ⟨he, trivial⟩
  | .cons k' e' rest, ⟨he', hr⟩ => by
    simp only [Childs.insert]
    split
    · exact ⟨he, hr⟩
    · exact ⟨he', Every.insert he hr⟩

theorem Shadow.lookup {k : String} {e' : Entry} :
    ∀ {cs cs' : Childs}, cs.Shadow P cs' → cs'.lookup k = some e' →
      (∃ e, cs.lookup k = some e ∧ e.Shadow P e') ∨ (cs.lookup k = none ∧ e'.ghostBase.Shadow P e')
  | _, .nil, _, h' => by simp [Childs.lookup] at h'
  | .nil, .cons k' e'' rest', ⟨hg, hr⟩, h' => by
    simp only [Childs.lookup] at h'
    split at h'
    · cases h'; exact .inr ⟨rfl, hg⟩
    · exact Shadow.lookup hr h'
  | .cons k₁ e₁ rest, .cons k' e'' rest', ⟨hk, he, hr⟩, h' => by
    subst hk
    simp only [Childs.lookup] at h' ⊢
    split at h'
    · cases h'; exact .inl ⟨e₁, by simp [*], he⟩
    · simpa [*] using Shadow.lookup hr h'

theorem Shadow.lookup_none {k : String} :
    ∀ {cs cs' : Childs}, cs.Shadow P cs' → cs'.lookup k = none → cs.lookup k = none
  | _, .nil, h, _ => by rw [shadow_nil_iff.mp h]; rfl
  | .nil, .cons _ _ _, _, _ => rfl
  | .cons k₁ e₁ rest, .cons k' e'' rest', ⟨hk, _, hr⟩, h' => by
    subst hk
    simp only [Childs.lookup] at h' ⊢
    split at h'
    · cases h'
    · simpa [*] using Shadow.lookup_none hr h'

theorem Shadow.lookup_some {k : String} {e : Entry} :
    ∀ {cs cs' : Childs}, cs.Shadow P cs' → cs.lookup k = some e →
      ∃ e', cs'.lookup k = some e' ∧ e.Shadow P e'
  | .nil, _, _, h => by simp [Childs.lookup] at h
  | .cons _ _ _, .nil, h, _ => by cases h
  | .cons k₁ e₁ rest, .cons k' e'' rest', ⟨hk, he, hr⟩, h => by
    subst hk
    simp only [Childs.lookup] at h ⊢
    split at h
    · cases h; exact ⟨e'', by simp [*], he⟩
    · simpa [*] using Shadow.lookup_some hr h

theorem Shadow.insert {k : String} {e₁ : Entry} :
    ∀ {cs cs' : Childs}, cs.Shadow P cs' → (∀ e, cs.lookup k = some e → e.Shadow P e₁) →
      (cs.lookup k = none → e₁.ghostBase.Shadow P e₁) → cs.Shadow P (cs'.insert k e₁)
  | _, .nil, h, _, hg => by
    obtain rfl := shadow_nil_iff.mp h
    exact ⟨hg rfl, rfl⟩
  | .nil, .cons k' e'' rest', ⟨hg', hr⟩, _, hg => by
    simp only [Childs.insert]
    split
    · exact ⟨hg rfl, hr⟩
    · exact ⟨hg', Shadow.insert hr (fun e h => by simp [Childs.lookup] at h) hg⟩
  | .cons k₁ e₂ rest, .cons k' e'' rest', ⟨hk₁, he, hr⟩, hs, hg => by
    subst hk₁
    simp only [Childs.insert]
    split
    · rename_i hk
      subst hk
      exact ⟨rfl, hs e₂ (by simp [Childs.lookup]), hr⟩
    · rename_i hk
      exact ⟨rfl, he, Shadow.insert hr (fun e h => hs e (by simp [Childs.lookup, hk, h]))
        fun h => hg (by simp [Childs.lookup, hk, h])⟩

end Childs

section Insert

variable (tc : TreeContext) (c : Update) (new : Bool) {Q : Entry → Prop}

theorem every_addCacheUpdateRecursive
    (hleaf : ∀ r, Q r → Q (r.withLeafVariants (r.leafVariants.addCacheUpdate c new)))
    (hchilds : ∀ r cs, Q r → Q (r.withChilds cs))
    (hnew : ∀ {anc path r key r' e}, newEntry tc anc path r key = .ok (r', e) → Q e) :
    ∀ (rest path : List String) (anc : List (Option SchemaElem)) (r : Entry),
      r.Every Q → (addCacheUpdateRecursive tc c new rest path anc r).1.Every Q
  | [], _, _, r, hr => by
    obtain ⟨hf, hc⟩ := Entry.every_iff.mp hr
    exact Entry.every_iff.mpr ⟨hleaf r hf, hc⟩
  | key :: rest, path, anc, r, hr => by
    obtain ⟨hf, hc⟩ := Entry.every_iff.mp hr
    simp only [addCacheUpdateRecursive]
    split
    · rename_i e he
      exact Entry.every_iff.mpr ⟨hchilds r _ hf,
        hc.insert (every_addCacheUpdateRecursive hleaf hchilds hnew rest _ _ e (hc.lookup he))⟩
    · split
      · exact hr
      · rename_i r' e hne
        have he : e.Every Q := Entry.every_iff.mpr ⟨hnew hne, by rw [(newEntry_ok hne).2.1]; trivial⟩
        obtain ⟨-, -, -, -, rfl⟩ := newEntry_ok hne
        simp only [Entry.withChilds_childs, Childs.insert_insert]
        exact Entry.every_iff.mpr ⟨hchilds _ _ (hchilds r _ hf),
          hc.insert (every_addCacheUpdateRecursive hleaf hchilds hnew rest _ _ e he)⟩

end Insert

mutual
theorem Entry.every_markOwnerDelete {Q : Entry → Prop} (o : String)
    (hQ : ∀ n cs lv s r, Q (.mk n cs lv s r) → Q (.mk n (cs.markOwnerDelete o) (lv.markOwnerDelete o) s r)) :
    ∀ e : Entry, e.Every Q → (e.markOwnerDelete o).Every Q
  | .mk _ cs _ _ _, ⟨hf, hc⟩ => ⟨hQ _ _ _ _ _ hf, Childs.every_markOwnerDelete o hQ cs hc⟩
theorem Childs.every_markOwnerDelete {Q : Entry → Prop} (o : String)
    (hQ : ∀ n cs lv s r, Q (.mk n cs lv s r) → Q (.mk n (cs.markOwnerDelete o) (lv.markOwnerDelete o) s r)) :
    ∀ cs : Childs, cs.Every Q → (cs.markOwnerDelete o).Every Q
  | .nil, _ => trivial
  | .cons _ e rest, ⟨he, hr⟩ =>
    ⟨Entry.every_markOwnerDelete o hQ e he, Childs.every_markOwnerDelete o hQ rest hr⟩
end

/-- The choice resolvers of an entry are as `initChoiceCasesResolvers` builds them from its schema,
in some case order: nothing has been fed to them yet. -/
def Entry.ResolversFresh (e : Entry) : Prop :=
  ∃ order path, e.choicesResolvers = initChoiceCasesResolvers order path e.schema

theorem Reachable.every_fresh {tc : TreeContext} {t : Entry} (ht : Reachable tc t) :
    t.Every Entry.ResolversFresh := by
  obtain ⟨root, ops, hroot, rfl⟩ := ht
  obtain ⟨_, rfl⟩ := newSharedEntryAttributes_ok hroot
  induction ops using List.reverseRecOn with
  | nil => exact ⟨⟨_, _, rfl⟩, trivial⟩
  | append_singleton ops op ih =>
    rw [buildTree, List.foldl_append, List.foldl_cons, List.foldl_nil]
    cases op with
    | addCacheUpdate u new =>
      exact every_addCacheUpdateRecursive tc u new (fun _ h => h) (fun _ _ h => h)
        (fun hne => ⟨_, _, (newEntry_ok hne).2.2.2.1⟩) _ _ _ _ ih
    | markOwnerDelete o => exact Entry.every_markOwnerDelete o (fun _ _ _ _ _ h => h) _ ih

namespace LeafVariants

theorem modifyByOwner_append_of_not_mem {o : String} {f : LeafEntry → LeafEntry} :
    ∀ {lv : LeafVariants} (lv' : LeafVariants), o ∉ lv.map LeafEntry.owner →
      (lv ++ lv').modifyByOwner o f = lv ++ lv'.modifyByOwner o f
  | [], _, _ => rfl
  | e :: lv, lv', h => by
    simp only [List.map_cons, List.mem_cons, not_or] at h
    simp [modifyByOwner, Ne.symm h.1, modifyByOwner_append_of_not_mem lv' h.2]

end LeafVariants

theorem not_mem_map_owner {o : String} {lv : LeafVariants} (h : ∀ l ∈ lv, l.owner ≠ o) :
    o ∉ lv.map LeafEntry.owner := by
  simpa using fun l hl h' => h l hl h'

theorem ExtraVariant.addCacheUpdate {c : Update} {new : Bool} {lv lv' : LeafVariants}
    (hno : ∀ l ∈ lv, l.owner ≠ c.owner) (h : ExtraVariant (·.owner = c.owner) lv lv') :
    ExtraVariant (·.owner = c.owner) lv (lv'.addCacheUpdate c new) := by
  have hnm := not_mem_map_owner hno
  rcases h with rfl | ⟨x, rfl, hx⟩
  · rw [LeafVariants.addCacheUpdate_of_not_mem hnm]
    exact .inr ⟨_, rfl, rfl⟩
  · rw [LeafVariants.addCacheUpdate_of_mem (by simp [hx]),
      LeafVariants.modifyByOwner_append_of_not_mem _ hnm]
    exact .inr ⟨_, by simp [LeafVariants.modifyByOwner, hx],
      (LeafVariants.owner_refreshVariant hx).trans hx⟩

theorem ExtraVariant.markOwnerDelete {o : String} {lv lv' : LeafVariants}
    (hno : ∀ l ∈ lv, l.owner ≠ o) (h : ExtraVariant (·.owner = o) lv lv') :
    ExtraVariant (fun x => x.owner = o ∧ x.delete = true) lv (lv'.markOwnerDelete o) := by
  have hnm := not_mem_map_owner hno
  rcases h with rfl | ⟨x, rfl, hx⟩
  · exact .inl (LeafVariants.modifyByOwner_of_not_mem hnm)
  · refine .inr ⟨x.markDelete, ?_, hx, rfl⟩
    rw [LeafVariants.markOwnerDelete, LeafVariants.modifyByOwner_append_of_not_mem _ hnm]
    simp [LeafVariants.modifyByOwner, hx]

section Insert

variable (tc : TreeContext) (c : Update) (new : Bool)

theorem shadow_addCacheUpdateRecursive :
    ∀ (rest path : List String) (anc : List (Option SchemaElem)) (b r : Entry),
      b.Every (fun e => ∀ l ∈ e.leafVariants, l.owner ≠ c.owner) → b.Shadow (·.owner = c.owner) r →
        (addCacheUpdateRecursive tc c new rest path anc r).2 = .ok () →
          b.Shadow (·.owner = c.owner) (addCacheUpdateRecursive tc c new rest path anc r).1
  | [], _, _, b, r, hb, h, _ => by
    obtain ⟨hn, hs, hr, hc, hl⟩ := Entry.shadow_iff.mp h
    exact Entry.shadow_iff.mpr ⟨hn, hs, hr, hc, hl.addCacheUpdate (Entry.every_iff.mp hb).1⟩
  | key :: rest, path, anc, b, r, hb, h, hok => by
    obtain ⟨hn, hs, hr, hc, hl⟩ := Entry.shadow_iff.mp h
    have hbc := (Entry.every_iff.mp hb).2
    cases hk : r.childs.lookup key with
    | some e =>
      simp only [addCacheUpdateRecursive, hk] at hok ⊢
      refine Entry.shadow_iff.mpr ⟨hn, hs, hr, hc.insert (fun e₀ he₀ => ?_) (fun hnone => ?_), hl⟩
      · obtain ⟨e₁, he₁, hse⟩ := hc.lookup_some he₀
        obtain rfl : e₁ = e := Option.some.inj (he₁.symm.trans hk)
        exact shadow_addCacheUpdateRecursive rest _ _ e₀ e₁ (hbc.lookup he₀) hse hok
      · obtain ⟨-, hg⟩ := (hc.lookup hk).resolve_left fun ⟨_, he₁, _⟩ => by simp [hnone] at he₁
        have ih := shadow_addCacheUpdateRecursive rest _ _ _ e (Entry.every_ghostBase e) hg hok
        exact Entry.eq_ghostBase_of_shadow (Entry.childs_ghostBase e) (Entry.leafVariants_ghostBase e) ih ▸ ih
    | none =>
      cases hne : newEntry tc anc path r key with
      | error => simp [addCacheUpdateRecursive, hk, hne] at hok
      | ok re =>
        obtain ⟨r', e⟩ := re
        simp only [addCacheUpdateRecursive, hk, hne] at hok ⊢
        obtain ⟨-, hce, hle, -, rfl⟩ := newEntry_ok hne
        have he : e.Every (fun e => ∀ l ∈ e.leafVariants, l.owner ≠ c.owner) :=
          Entry.every_iff.mpr ⟨by simp [hle], by rw [hce]; trivial⟩
        have ih := shadow_addCacheUpdateRecursive rest _ _ e e he (Entry.Shadow.refl e) hok
        refine Entry.shadow_iff.mpr ⟨hn, hs, hr, ?_, hl⟩
        simp only [Entry.withChilds_childs, Childs.insert_insert]
        exact hc.insert (fun e₀ h => by rw [hc.lookup_none hk] at h; cases h)
          fun _ => Entry.eq_ghostBase_of_shadow hce hle ih ▸ ih

end Insert

@[simp] theorem Entry.ghostBase_markOwnerDelete (o : String) (e : Entry) :
    (e.markOwnerDelete o).ghostBase = e.ghostBase := by
  cases e; rfl

mutual
theorem Entry.shadow_markOwnerDelete {o : String} :
    ∀ (b e' : Entry), b.Every (fun e => ∀ l ∈ e.leafVariants, l.owner ≠ o) → b.Shadow (·.owner = o) e' →
      b.Shadow (fun x => x.owner = o ∧ x.delete = true) (e'.markOwnerDelete o)
  | b, .mk _ cs' _ _ _, hb, ⟨hn, hs, hr, hc, hl⟩ =>
    ⟨hn, hs, hr, Childs.shadow_markOwnerDelete b.childs cs' (Entry.every_iff.mp hb).2 hc,
      hl.markOwnerDelete (Entry.every_iff.mp hb).1⟩
theorem Childs.shadow_markOwnerDelete {o : String} :
    ∀ (cs cs' : Childs), cs.Every (fun e => ∀ l ∈ e.leafVariants, l.owner ≠ o) → cs.Shadow (·.owner = o) cs' →
      cs.Shadow (fun x => x.owner = o ∧ x.delete = true) (cs'.markOwnerDelete o)
  | _, .nil, _, h => Childs.shadow_nil_iff.mpr (Childs.shadow_nil_iff.mp h)
  | .nil, .cons _ e' rest', _, ⟨hg, hr⟩ =>
    ⟨(Entry.ghostBase_markOwnerDelete o e').symm ▸
        Entry.shadow_markOwnerDelete e'.ghostBase e' (Entry.every_ghostBase e') hg,
      Childs.shadow_markOwnerDelete .nil rest' trivial hr⟩
  | .cons _ e rest, .cons _ e' rest', ⟨he, hr⟩, ⟨hk, hs, hrest⟩ =>
    ⟨hk, Entry.shadow_markOwnerDelete e e' he hs, Childs.shadow_markOwnerDelete rest rest' hr hrest⟩
end

theorem shadow_addCacheUpdates {tc : TreeContext} {new : Bool} {o : String} {b : Entry}
    (hb : b.Every fun e => ∀ l ∈ e.leafVariants, l.owner ≠ o) :
    ∀ {us : List Update} {r r' : Entry}, (∀ u ∈ us, u.owner = o) → b.Shadow (·.owner = o) r →
      addCacheUpdates tc new r us = .ok r' → b.Shadow (·.owner = o) r'
  | [], _, _, _, h, hr => by cases hr; exact h
  | u :: _, r, _, hus, h, hr => by
    obtain ⟨hok, hr⟩ := addCacheUpdates_cons.mp hr
    obtain rfl := hus u (List.mem_cons_self _ _)
    exact shadow_addCacheUpdates hb (fun u' h' => hus u' (List.mem_cons_of_mem _ h'))
      (shadow_addCacheUpdateRecursive tc u new u.path [] [] b r hb h hok) hr

end DataServer
