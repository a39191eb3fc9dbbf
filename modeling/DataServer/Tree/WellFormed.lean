import DataServer.Tree.Entry
import Mathlib.Data.List.Infix

/-! The representation invariant of the tree: every child is stored once, under its own name,
every leaf variant sits at its entry's path, and no owner holds two variants of one entry. Every
call that builds the tree keeps it, failing calls included. -/
namespace DataServer

mutual
/-- The invariant of the entry whose `Path()` is `path`. -/
def Entry.WellFormed (path : List String) : Entry → Prop
  | .mk _ childs lv _ _ =>
    (∀ l ∈ lv, l.update.path = path) ∧ (lv.map LeafEntry.owner).Nodup ∧ childs.WellFormed path
/-- Each child is stored under its own name, which no later key repeats. -/
def Childs.WellFormed (path : List String) : Childs → Prop
  | .nil => True
  | .cons k e rest =>
    e.pathElemName = k ∧ e.WellFormed (path ++ [k]) ∧ k ∉ rest.keys ∧ rest.WellFormed path
end

mutual
/-- The `Path()` of every entry of the branch, the entry first. -/
def Entry.paths (path : List String) : Entry → List (List String)
  | .mk _ childs _ _ _ => path :: childs.paths path
def Childs.paths (path : List String) : Childs → List (List String)
  | .nil => []
  | .cons _ e rest => e.paths (path ++ [e.pathElemName]) ++ rest.paths path
end

/-- The entry reached from `e` by the keys of `p`. -/
def Entry.getAt : List String → Entry → Option Entry
  | [], e => some e
  | k :: ks, e => (e.childs.lookup k).bind (getAt ks)

theorem Entry.wellFormed_iff {path : List String} {e : Entry} :
    e.WellFormed path ↔ (∀ l ∈ e.leafVariants, l.update.path = path) ∧
      (e.leafVariants.map LeafEntry.owner).Nodup ∧ e.childs.WellFormed path := by
  cases e; rfl

namespace Childs

theorem WellFormed.lookup {path : List String} {key : String} {e : Entry} :
    ∀ {cs : Childs}, cs.WellFormed path → cs.lookup key = some e →
      e.pathElemName = key ∧ e.WellFormed (path ++ [key])
  | .nil, _, he => by simp [Childs.lookup] at he
  | .cons k e' rest, ⟨hn, hw, _, hr⟩, he => by
    simp only [Childs.lookup] at he
    split at he
    · cases he; subst k; exact ⟨hn, hw⟩
    · exact WellFormed.lookup hr he

theorem WellFormed.insert {path : List String} {key : String} {e : Entry}
    (hn : e.pathElemName = key) (he : e.WellFormed (path ++ [key])) :
    ∀ {cs : Childs}, cs.WellFormed path → (cs.insert key e).WellFormed path
  | .nil, _ => ⟨hn, he, by simp [Childs.keys], trivial⟩
  | .cons k e' rest, ⟨hn', hw, hk, hr⟩ => by
    by_cases h : k = key
    · subst h; simp only [Childs.insert, if_true]; exact ⟨hn, he, hk, hr⟩
    · simp only [Childs.insert, h, if_false]
      exact ⟨hn', hw, fun hm => (Childs.mem_keys_insert.mp hm).elim hk h, WellFormed.insert hn he hr⟩

end Childs

mutual
theorem Entry.wellFormed_markOwnerDelete (o : String) :
    ∀ {path : List String} (e : Entry), e.WellFormed path → (e.markOwnerDelete o).WellFormed path
  | _, .mk _ cs lv _ _, ⟨hp, hnd, hc⟩ =>
    ⟨LeafVariants.path_markOwnerDelete hp, (LeafVariants.map_owner_markOwnerDelete o lv).symm ▸ hnd,
      Childs.wellFormed_markOwnerDelete o cs hc⟩
theorem Childs.wellFormed_markOwnerDelete (o : String) :
    ∀ {path : List String} (cs : Childs), cs.WellFormed path → (cs.markOwnerDelete o).WellFormed path
  | _, .nil, _ => trivial
  | _, .cons _ e rest, ⟨hn, he, hk, hr⟩ =>
    ⟨(pathElemName_markOwnerDelete o e).trans hn, Entry.wellFormed_markOwnerDelete o e he,
      (keys_markOwnerDelete o rest).symm ▸ hk, Childs.wellFormed_markOwnerDelete o rest hr⟩
end

theorem wellFormed_of_empty {e : Entry} (hc : e.childs = .nil) (hl : e.leafVariants = [])
    (path : List String) : e.WellFormed path :=
  Entry.wellFormed_iff.mpr ⟨by simp [hl], by simp [hl], by rw [hc]; trivial⟩

section Insert

variable (tc : TreeContext) (c : Update) (new : Bool)

theorem wellFormed_addCacheUpdateRecursive :
    ∀ (rest path : List String) (anc : List (Option SchemaElem)) (r : Entry),
      path ++ rest = c.path → r.WellFormed path →
        (addCacheUpdateRecursive tc c new rest path anc r).1.WellFormed path
  | [], path, anc, r, hp, hr => by
    rw [List.append_nil] at hp
    obtain ⟨hpath, hnd, hc⟩ := Entry.wellFormed_iff.mp hr
    exact Entry.wellFormed_iff.mpr
      ⟨LeafVariants.path_addCacheUpdate hp.symm hpath, LeafVariants.nodup_addCacheUpdate hnd, hc⟩
  | key :: rest, path, anc, r, hp, hr => by
    obtain ⟨hpath, hnd, hc⟩ := Entry.wellFormed_iff.mp hr
    simp only [addCacheUpdateRecursive]
    split
    · rename_i e he
      obtain ⟨hn, hw⟩ := hc.lookup he
      have ih := wellFormed_addCacheUpdateRecursive rest (path ++ [e.pathElemName]) (r.schema :: anc) e
        (by simp [hn, hp]) (hn ▸ hw)
      rw [hn] at ih ⊢
      exact Entry.wellFormed_iff.mpr ⟨hpath, hnd, hc.insert (by simp [hn]) ih⟩
    · split
      · exact hr
      · rename_i r' e hne
        obtain ⟨hn, hce, hle, -, rfl⟩ := newEntry_ok hne
        have ih := wellFormed_addCacheUpdateRecursive rest (path ++ [e.pathElemName]) (r.schema :: anc) e
          (by simp [hn, hp]) (wellFormed_of_empty hce hle _)
        rw [hn] at ih ⊢
        simp only [Entry.withChilds_childs, Childs.insert_insert]
        exact Entry.wellFormed_iff.mpr ⟨hpath, hnd, hc.insert (by simp [hn]) ih⟩

theorem addCacheUpdateRecursive_ok_getAt :
    ∀ (rest path : List String) (anc : List (Option SchemaElem)) (r : Entry),
      path ++ rest = c.path → r.WellFormed path →
        (addCacheUpdateRecursive tc c new rest path anc r).2 = .ok () →
          ∃ e, (addCacheUpdateRecursive tc c new rest path anc r).1.getAt rest = some e ∧
            ∃ l, e.leafVariants.filter (fun l => l.owner = c.owner) = [l] ∧ l.update = c
  | [], path, anc, r, hp, hr, _ => by
    rw [List.append_nil] at hp
    obtain ⟨hpath, hnd, -⟩ := Entry.wellFormed_iff.mp hr
    exact ⟨_, rfl, LeafVariants.filter_owner_addCacheUpdate hnd (hp ▸ hpath)⟩
  | key :: rest, path, anc, r, hp, hr, hok => by
    obtain ⟨-, -, hc⟩ := Entry.wellFormed_iff.mp hr
    cases hl : r.childs.lookup key with
    | some e =>
      simp only [addCacheUpdateRecursive, hl] at hok ⊢
      obtain ⟨hn, hw⟩ := hc.lookup hl
      simpa [Entry.getAt] using addCacheUpdateRecursive_ok_getAt rest _ _ e (by simp [hn, hp])
        (hn ▸ hw) hok
    | none =>
      cases hne : newEntry tc anc path r key with
      | error err => simp only [addCacheUpdateRecursive, hl, hne] at hok; cases hok
      | ok re =>
        obtain ⟨r', e⟩ := re
        simp only [addCacheUpdateRecursive, hl, hne] at hok ⊢
        obtain ⟨hn, hce, hle, -, rfl⟩ := newEntry_ok hne
        simpa [Entry.getAt] using addCacheUpdateRecursive_ok_getAt rest _ _ e (by simp [hn, hp])
          (wellFormed_of_empty hce hle _) hok

end Insert

theorem TreeOp.wellFormed_apply (tc : TreeContext) {root : Entry} (h : root.WellFormed []) :
    ∀ op : TreeOp, (op.apply tc root).WellFormed []
  | .addCacheUpdate u new => wellFormed_addCacheUpdateRecursive tc u new u.path [] [] root rfl h
  | .markOwnerDelete o => Entry.wellFormed_markOwnerDelete o root h

theorem wellFormed_buildTree (tc : TreeContext) :
    ∀ (ops : List TreeOp) {root : Entry}, root.WellFormed [] → (buildTree tc root ops).WellFormed []
  | [], _, h => h
  | op :: ops, _, h => wellFormed_buildTree tc ops (TreeOp.wellFormed_apply tc h op)

theorem wellFormed_newTreeRoot {tc : TreeContext} {root : Entry} (h : newTreeRoot tc = .ok root) :
    root.WellFormed [] := by
  obtain ⟨_, rfl⟩ := newSharedEntryAttributes_ok h
  exact wellFormed_of_empty (by rfl) (by rfl) []

theorem Reachable.wellFormed {tc : TreeContext} {t : Entry} (h : Reachable tc t) : t.WellFormed [] := by
  obtain ⟨root, ops, hroot, rfl⟩ := h
  exact wellFormed_buildTree tc ops (wellFormed_newTreeRoot hroot)

theorem prefix_eq_of_length {a b p : List String} (ha : a <+: p) (hb : b <+: p)
    (h : a.length = b.length) : a = b :=
  (List.prefix_of_prefix_length_le ha hb h.le).eq_of_length h

mutual
theorem Entry.prefix_of_mem_paths : ∀ {path p : List String} (e : Entry), e.WellFormed path →
    p ∈ e.paths path → path <+: p
  | _, _, .mk _ cs _ _ _, ⟨_, _, hc⟩, h => by
    rcases List.mem_cons.mp h with rfl | h
    · exact List.prefix_refl _
    · obtain ⟨k, -, hk⟩ := Childs.prefix_of_mem_paths cs hc h
      exact (List.prefix_append _ _).trans hk
theorem Childs.prefix_of_mem_paths : ∀ {path p : List String} (cs : Childs), cs.WellFormed path →
    p ∈ cs.paths path → ∃ k ∈ cs.keys, path ++ [k] <+: p
  | _, _, .nil, _, h => by simp [Childs.paths] at h
  | _, _, .cons k e rest, ⟨hn, he, _, hr⟩, h => by
    rcases List.mem_append.mp h with h | h
    · rw [hn] at h
      exact ⟨k, List.mem_cons_self _ _, Entry.prefix_of_mem_paths e he h⟩
    · obtain ⟨k', hk', h'⟩ := Childs.prefix_of_mem_paths rest hr h
      exact ⟨k', List.mem_cons_of_mem _ hk', h'⟩
end

mutual
theorem Entry.nodup_paths : ∀ {path : List String} (e : Entry), e.WellFormed path → (e.paths path).Nodup
  | _, .mk _ cs _ _ _, ⟨_, _, hc⟩ => by
    refine List.nodup_cons.mpr ⟨fun h => ?_, Childs.nodup_paths cs hc⟩
    obtain ⟨k, -, hk⟩ := Childs.prefix_of_mem_paths cs hc h
    exact absurd hk.length_le (by simp)
theorem Childs.nodup_paths : ∀ {path : List String} (cs : Childs), cs.WellFormed path →
    (cs.paths path).Nodup
  | _, .nil, _ => List.nodup_nil
  | _, .cons k e rest, ⟨hn, he, hk, hr⟩ => by
    simp only [Childs.paths, hn]
    refine List.nodup_append.mpr ⟨Entry.nodup_paths e he, Childs.nodup_paths rest hr, fun p h1 h2 => ?_⟩
    obtain ⟨k', hk', h'⟩ := Childs.prefix_of_mem_paths rest hr h2
    have hkk : k = k' := by
      simpa using prefix_eq_of_length (Entry.prefix_of_mem_paths e he h1) h' (by simp)
    exact hk (hkk ▸ hk')
end

/-- What the code keeps true of every tree it builds: each child sits under its own name, leaf
variants sit at their entry's `Path()` and belong to distinct owners, distinct entries have
distinct paths, and a successful insert of `u` leaves at the entry of `u.GetPath()` exactly one
variant of `u`'s owner, which carries `u`. -/
structure TreeInvariant (tc : TreeContext) (t : Entry) : Prop where
  wellFormed : t.WellFormed []
  distinctPaths : (t.paths []).Nodup
  insertLands : ∀ (u : Update) (new : Bool),
    (addCacheUpdateRecursive tc u new u.path [] [] t).2 = .ok () →
      ∃ e, (addCacheUpdateRecursive tc u new u.path [] [] t).1.getAt u.path = some e ∧
        ∃ l, e.leafVariants.filter (fun l => l.owner = u.owner) = [l] ∧ l.update = u

/-- Every tree built from `NewTreeRoot` by any sequence of inserts, succeeding or failing, and owner
deletes satisfies the invariant. -/
theorem reachable_tree_invariant {tc : TreeContext} {t : Entry} (ht : Reachable tc t) :
    TreeInvariant tc t :=
  ⟨ht.wellFormed, Entry.nodup_paths t ht.wellFormed, fun u new hok =>
    addCacheUpdateRecursive_ok_getAt tc u new u.path [] [] t rfl ht.wellFormed hok⟩

def sampleContainer : SchemaElem := ⟨some (.container ⟨[], [], false, []⟩)⟩

/-- A small device: a non-presence container for the root and every top-level name, and string
leaves below. -/
def sampleContext : TreeContext where
  getSchema p := .ok (some (if p.length ≤ 1 then sampleContainer else ⟨some (.field ⟨"string", ""⟩)⟩))
  actualOwner := "owner1"
  storeIndex := []
  caseOrder := .schema

def sampleOps : List TreeOp :=
  [.addCacheUpdate ⟨["a"], [1], 10, "owner1"⟩ true, .addCacheUpdate ⟨["a", "b"], [2], 10, "owner1"⟩ true]

theorem reachable_tree_invariant_sample :
    Reachable sampleContext (buildTree sampleContext (.mk "" .nil [] (some sampleContainer) []) sampleOps) ∧
      TreeInvariant sampleContext
        (buildTree sampleContext (.mk "" .nil [] (some sampleContainer) []) sampleOps) :=
  have h : Reachable sampleContext
      (buildTree sampleContext (.mk "" .nil [] (some sampleContainer) []) sampleOps) := ⟨_, _, rfl, rfl⟩
  ⟨h, reachable_tree_invariant h⟩

/-- Both inserts of the sample succeed, and the entry `a` ends with a leaf variant and the child `b`
under a schema that is a container without presence. -/
theorem leaf_then_child_in_plain_container :
    (addCacheUpdateRecursive sampleContext ⟨["a"], [1], 10, "owner1"⟩ true ["a"] [] []
        (.mk "" .nil [] (some sampleContainer) [])).2 = .ok () ∧
      (addCacheUpdateRecursive sampleContext ⟨["a", "b"], [2], 10, "owner1"⟩ true ["a", "b"] [] []
        (buildTree sampleContext (.mk "" .nil [] (some sampleContainer) []) (sampleOps.take 1))).2 = .ok () ∧
      ∃ a, (buildTree sampleContext (.mk "" .nil [] (some sampleContainer) []) sampleOps).childs.lookup "a"
          = some a ∧ a.leafVariants.length = 1 ∧ a.childs.keys = ["b"] ∧
        SchemaElem.getContainer a.schema = some ⟨[], [], false, []⟩ :=
  ⟨rfl, rfl, _, rfl, rfl, rfl, rfl⟩

end DataServer
