import DataServer.Tree.WellFormed
import DataServer.Tree.Query

/-! Navigation in the tree by path: `getAt` through every child, `activeAt` only through the
children `filterActiveChoiceCaseChilds` keeps, and the schemas `GetAncestorSchema` walks above
an entry. `FinishInsertionPhase` changes only choice resolvers, so it keeps the representation
invariant. -/
namespace DataServer

/-- The entry reached from `e` by `p` through active children only. -/
def Entry.activeAt : List String → Entry → Option Entry
  | [], e => some e
  | k :: ks, e => (e.filterActiveChoiceCaseChilds.lookup k).bind (activeAt ks)

/-- The schemas of the proper ancestors of the entry reached from `e` by `r`, nearest first, up to
`e` itself: the part below `e` of the chain `GetAncestorSchema` walks. -/
def Entry.ancestorsAlong : List String → Entry → List (Option SchemaElem)
  | [], _ => []
  | k :: r, e => ((e.childs.lookup k).map (ancestorsAlong r)).getD [] ++ [e.schema]

theorem Childs.lookup_filterActive (skip : List String) (k : String) :
    ∀ cs : Childs, (cs.filterActive skip).lookup k = if k ∈ skip then none else cs.lookup k
  | .nil => by simp [Childs.filterActive, Childs.lookup]
  | .cons k' e rest => by
    have ih := Childs.lookup_filterActive skip k rest
    by_cases hs : k' ∈ skip
    · by_cases hk : k' = k
      · subst hk; simp [Childs.filterActive, hs, ih]
      · simp [Childs.filterActive, Childs.lookup, hs, hk, ih]
    · by_cases hk : k' = k
      · subst hk; simp [Childs.filterActive, Childs.lookup, hs]
      · simp [Childs.filterActive, Childs.lookup, hs, hk, ih]

namespace Entry

theorem getAt_append : ∀ (p q : List String) (e : Entry), e.getAt (p ++ q) = (e.getAt p).bind (getAt q)
  | [], _, _ => rfl
  | k :: p, q, e => by
    simp only [List.cons_append, getAt]
    cases e.childs.lookup k <;> simp [getAt_append p q]

theorem activeAt_append :
    ∀ (p q : List String) (e : Entry), e.activeAt (p ++ q) = (e.activeAt p).bind (activeAt q)
  | [], _, _ => rfl
  | k :: p, q, e => by
    simp only [List.cons_append, activeAt]
    cases e.filterActiveChoiceCaseChilds.lookup k <;> simp [activeAt_append p q]

theorem activeAt_eq_some_cons {k : String} {p : List String} {e c : Entry} (h : e.activeAt (k :: p) = some c) :
    ∃ c', e.childs.lookup k = some c' ∧ k ∉ e.skipElements ∧ c'.activeAt p = some c := by
  simp only [activeAt, filterActiveChoiceCaseChilds, Childs.lookup_filterActive] at h
  split at h
  · simp at h
  · rename_i hk
    obtain ⟨c', hc', hp⟩ := Option.bind_eq_some.mp h
    exact ⟨c', hc', hk, hp⟩

theorem activeAt_of_keys_nil {e c : Entry} (he : e.childs.keys = []) :
    ∀ {p : List String}, e.activeAt p = some c → p = [] ∧ c = e
  | [], h => ⟨rfl, (Option.some.inj h).symm⟩
  | _ :: _, h => by
    obtain ⟨_, hk, -⟩ := activeAt_eq_some_cons h
    simpa [he] using Childs.mem_keys_of_lookup hk

theorem getAt_of_activeAt : ∀ {p : List String} {e E : Entry}, e.activeAt p = some E → e.getAt p = some E
  | [], _, _, h => h
  | k :: p, e, E, h => by
    simp only [activeAt, filterActiveChoiceCaseChilds, Childs.lookup_filterActive] at h
    split at h
    · simp at h
    · simp only [getAt]
      cases hk : e.childs.lookup k with
      | none => simp [hk] at h
      | some c => simp only [hk, Option.bind_some] at h ⊢; exact getAt_of_activeAt h

theorem wellFormed_getAt :
    ∀ {p path : List String} {e X : Entry}, e.WellFormed path → e.getAt p = some X → X.WellFormed (path ++ p)
  | [], path, _, _, he, h => by cases h; simpa using he
  | k :: p, path, e, X, he, h => by
    simp only [getAt] at h
    cases hk : e.childs.lookup k with
    | none => simp [hk] at h
    | some c =>
      simp only [hk, Option.bind_some] at h
      have := wellFormed_getAt ((wellFormed_iff.mp he).2.2.lookup hk).2 h
      simpa using this

theorem childs_ne_nil_of_getAt {k : String} {p : List String} {e X : Entry} (h : e.getAt (k :: p) = some X) :
    e.childs ≠ .nil := by
  intro hc
  simp [getAt, hc, Childs.lookup] at h

end Entry

mutual
theorem Entry.mem_getHighestPrecedence : ∀ {path : List String} {b : Bool} {result : List Update}
    {u : Update} (e : Entry), e.WellFormed path → u ∈ e.getHighestPrecedence b result →
    u ∈ result ∨ ∃ r E l, e.activeAt r = some E ∧ E.leafVariants.getHighestPrecedence b = some l ∧
      u = l.update ∧ u.path = path ++ r
  | path, b, result, u, .mk n childs lv schema resolvers, hw, h => by
    simp only [Entry.getHighestPrecedence] at h
    rcases Childs.mem_getHighestPrecedence childs hw.2.2 h with h | ⟨k, c, r, E, l, hk, hE, hl, rfl, hp⟩
    · split at h
      · rename_i l hl
        rcases List.mem_append.1 h with h | h
        · exact .inl h
        · obtain rfl := List.mem_singleton.1 h
          exact .inr ⟨[], _, l, rfl, hl, rfl,
            by simpa using hw.1 l (LeafVariants.getHighestPrecedence_spec hl).1⟩
      · exact .inl h
    · refine .inr ⟨k :: r, E, l, ?_, hl, rfl, hp⟩
      simp only [Entry.activeAt, Entry.filterActiveChoiceCaseChilds, Entry.childs_mk, hk]
      exact hE
theorem Childs.mem_getHighestPrecedence : ∀ {path : List String} {b : Bool} {skip : List String}
    {result : List Update} {u : Update} (cs : Childs), cs.WellFormed path →
    u ∈ cs.getHighestPrecedence b skip result →
    u ∈ result ∨ ∃ k c r E l, (cs.filterActive skip).lookup k = some c ∧ c.activeAt r = some E ∧
      E.leafVariants.getHighestPrecedence b = some l ∧ u = l.update ∧ u.path = path ++ k :: r
  | _, _, _, _, _, .nil, _, h => .inl h
  | path, b, skip, result, u, .cons k c rest, ⟨hn, hc, hk, hr⟩, h => by
    simp only [Childs.getHighestPrecedence] at h
    rcases Childs.mem_getHighestPrecedence rest hr h with h | ⟨k', c', r, E, l, hk', hE, hl, rfl, hp⟩
    · split at h
      · exact .inl h
      · rename_i hks
        rcases Entry.mem_getHighestPrecedence c (hn ▸ hc) h with h | ⟨r, E, l, hE, hl, rfl, hp⟩
        · exact .inl h
        · exact .inr ⟨k, c, r, E, l, by simp [Childs.filterActive, hks, Childs.lookup], hE, hl, rfl,
            by simpa [hn] using hp⟩
    · rw [Childs.lookup_filterActive] at hk'
      split at hk'
      · cases hk'
      · rename_i hs
        have hne : k ≠ k' := by
          rintro rfl
          exact hk (by_contra fun hn => absurd hk' (by simp [Childs.lookup_eq_none_iff.2 hn]))
        exact .inr ⟨k', c', r, E, l, by simp [Childs.lookup_filterActive, hs, Childs.lookup, hne, hk'],
          hE, hl, rfl, hp⟩
end

theorem Entry.finishInsertionPhase_eq (tc : TreeContext) (path : List String) :
    ∀ e : Entry, (e.finishInsertionPhase tc path).pathElemName = e.pathElemName ∧
      (e.finishInsertionPhase tc path).leafVariants = e.leafVariants ∧
      (e.finishInsertionPhase tc path).schema = e.schema
  | .mk _ _ _ _ _ => ⟨rfl, rfl, rfl⟩

theorem Childs.keys_finishInsertionPhase (tc : TreeContext) (path skip : List String) :
    ∀ cs : Childs, (cs.finishInsertionPhase tc path skip).keys = cs.keys
  | .nil => rfl
  | .cons k _ rest => by
    simp only [Childs.finishInsertionPhase, Childs.keys, Childs.keys_finishInsertionPhase tc path skip rest]

mutual
theorem Entry.wellFormed_finishInsertionPhase (tc : TreeContext) :
    ∀ {path : List String} (e : Entry), e.WellFormed path → (e.finishInsertionPhase tc path).WellFormed path
  | _, .mk _ cs _ _ _, ⟨hp, hnd, hc⟩ => ⟨hp, hnd, Childs.wellFormed_finishInsertionPhase tc _ cs hc⟩
theorem Childs.wellFormed_finishInsertionPhase (tc : TreeContext) :
    ∀ {path : List String} (skip : List String) (cs : Childs), cs.WellFormed path →
      (cs.finishInsertionPhase tc path skip).WellFormed path
  | _, _, .nil, _ => trivial
  | path, skip, .cons k e rest, ⟨hn, he, hk, hr⟩ => by
    refine ⟨?_, ?_, by rwa [Childs.keys_finishInsertionPhase], Childs.wellFormed_finishInsertionPhase tc skip rest hr⟩
    · split
      · exact hn
      · exact (Entry.finishInsertionPhase_eq tc _ e).1.trans hn
    · split
      · exact he
      · rw [hn]; exact Entry.wellFormed_finishInsertionPhase tc e he
end

theorem wellFormed_rootFinishInsertionPhase (tc : TreeContext) {t : Entry} (h : t.WellFormed []) :
    (rootFinishInsertionPhase tc t).WellFormed [] :=
  Entry.wellFormed_finishInsertionPhase tc t h

mutual
theorem Entry.getHighestPrecedence_sublist_paths (b : Bool) : ∀ {path : List String} (result : List Update)
    (e : Entry), e.WellFormed path →
    ∃ ys, e.getHighestPrecedence b result = result ++ ys ∧ (ys.map (·.path)).Sublist (e.paths path)
  | _, result, .mk n childs lv s r, hw => by
    simp only [Entry.getHighestPrecedence, Entry.paths]
    split
    · rename_i l hl
      obtain ⟨zs, hz, hs⟩ :=
        Childs.getHighestPrecedence_sublist_paths b (Entry.mk n childs lv s r).skipElements (result ++ [l.update]) childs hw.2.2
      refine ⟨l.update :: zs, by simp [hz], ?_⟩
      rw [List.map_cons, hw.1 l (LeafVariants.getHighestPrecedence_spec hl).1]
      exact hs.cons₂ _
    · obtain ⟨zs, hz, hs⟩ := Childs.getHighestPrecedence_sublist_paths b (Entry.mk n childs lv s r).skipElements result childs hw.2.2
      exact ⟨zs, hz, hs.cons _⟩
theorem Childs.getHighestPrecedence_sublist_paths (b : Bool) (skip : List String) :
    ∀ {path : List String} (result : List Update) (cs : Childs), cs.WellFormed path →
    ∃ ys, cs.getHighestPrecedence b skip result = result ++ ys ∧ (ys.map (·.path)).Sublist (cs.paths path)
  | _, result, .nil, _ => ⟨[], (List.append_nil result).symm, List.nil_sublist _⟩
  | _, result, .cons _ c rest, ⟨hn, hc, _, hr⟩ => by
    simp only [Childs.getHighestPrecedence, Childs.paths, hn]
    split
    · obtain ⟨zs, hz, hs⟩ := Childs.getHighestPrecedence_sublist_paths b skip result rest hr
      exact ⟨zs, hz, hs.trans (List.sublist_append_right _ _)⟩
    · obtain ⟨ys, hy, hys⟩ := Entry.getHighestPrecedence_sublist_paths b result c hc
      obtain ⟨zs, hz, hs⟩ := Childs.getHighestPrecedence_sublist_paths b skip (result ++ ys) rest hr
      exact ⟨ys ++ zs, by rw [hy, hz, List.append_assoc], by simpa using hys.append hs⟩
end

/-- The updates a finished tree sends to the device have pairwise distinct paths: for every tree
built from `NewTreeRoot` by any sequence of inserts and owner deletes, `GetHighestPrecedence`
after `FinishInsertionPhase` returns at most one update per path, whether all leaves or only the
new and updated ones are asked for. -/
theorem rootGetHighestPrecedence_nodup_paths {tc : TreeContext} {t : Entry} (ht : Reachable tc t) (b : Bool) :
    ((rootGetHighestPrecedence (rootFinishInsertionPhase tc t) b).map (·.path)).Nodup := by
  have hw := wellFormed_rootFinishInsertionPhase tc ht.wellFormed
  obtain ⟨ys, hy, hs⟩ := Entry.getHighestPrecedence_sublist_paths b [] _ hw
  rw [rootGetHighestPrecedence, hy, List.nil_append]
  exact (Entry.nodup_paths _ hw).sublist hs

theorem rootGetHighestPrecedence_nodup_paths_sample :
    Reachable sampleContext (buildTree sampleContext (.mk "" .nil [] (some sampleContainer) []) sampleOps) ∧
      ((rootGetHighestPrecedence (rootFinishInsertionPhase sampleContext
        (buildTree sampleContext (.mk "" .nil [] (some sampleContainer) []) sampleOps)) true).map (·.path)).Nodup :=
  have h : Reachable sampleContext
      (buildTree sampleContext (.mk "" .nil [] (some sampleContainer) []) sampleOps) := ⟨_, _, rfl, rfl⟩
  ⟨h, rootGetHighestPrecedence_nodup_paths h true⟩

end DataServer
