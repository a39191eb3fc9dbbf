import DataServer.Tree.Canon
import DataServer.Tree.Restore
import DataServer.Tree.Deletes
import Mathlib.Data.List.MinMax
import Mathlib.Data.Multiset.Basic

/-! What the read side of the tree makes of a tree and of its canonical form. Branch values and
choice resolution are least values, so they ignore order; `GetHighestPrecedence` and
`GetDeletes` walk children in order, so they agree up to order, the former when no two variants
of a leaf tie. -/
namespace DataServer

theorem ite_lt_eq_min {α : Type} [LinearOrder α] (a b : α) : (if a < b then a else b) = min a b :=
  (min_def_lt a b).symm

namespace LeafVariants

theorem getHighestPrecedenceValue_perm {lv lv' : LeafVariants} (hp : lv.Perm lv') :
    lv.getHighestPrecedenceValue = lv'.getHighestPrecedenceValue := by
  have hstep : ∀ (z : Int32) (e : LeafEntry),
      (if !e.delete && e.priority < z then e.priority else z) =
        min z (if e.delete then Int32.maxInt32 else e.priority) := by
    intro z e
    cases e.delete
    · simp only [Bool.not_false, Bool.true_and, decide_eq_true_eq, if_false, Bool.false_eq_true]
      rw [ite_lt_eq_min, min_comm]
    · simp [min_eq_left (Int32.le_maxInt32 z)]
  unfold getHighestPrecedenceValue
  simp only [hstep]
  exact hp.foldl_eq' (fun _ _ _ _ _ => min_right_comm (α := Int32) _ _ _) _

theorem shouldDelete_perm {lv lv' : LeafVariants} (hp : lv.Perm lv') :
    lv.shouldDelete = lv'.shouldDelete := by
  have hall : ∀ p : LeafEntry → Bool, lv.all p = lv'.all p := fun p =>
    Bool.eq_iff_iff.mpr (by simp only [List.all_eq_true, hp.mem_iff])
  match lv, lv', hp with
  | [], [], _ => rfl
  | [], _ :: _, hp => exact absurd hp.length_eq (by simp)
  | _ :: _, [], hp => exact absurd hp.length_eq (by simp)
  | a :: as, b :: bs, hp =>
    by_cases h1 : bs = []
    · subst h1
      obtain ⟨rfl, rfl⟩ : a = b ∧ as = [] := by simpa using List.perm_singleton.mp hp
      rfl
    · have h1' : as ≠ [] := fun h => h1 (List.length_eq_zero.mp (by simpa [h] using hp.length_eq.symm))
      have e1 : (as.length + 1 == 1) = false := by simpa using h1'
      have e2 : (bs.length + 1 == 1) = false := by simpa using h1
      simp only [shouldDelete, hall, List.length_cons, e1, e2, Bool.and_false, Bool.not_false,
        Bool.true_and]

theorem exists_isLeast {lv : LeafVariants} (h : lv ≠ []) : ∃ m, IsLeast lv m := by
  cases hm : lv.argmin LeafEntry.priority with
  | none => exact absurd (List.argmin_eq_none.mp hm) h
  | some m => exact ⟨m, List.argmin_mem hm, fun e he => le_of_not_lt (List.not_lt_of_mem_argmin he hm)⟩

theorem IsLeast.perm {lv lv' : LeafVariants} (hp : lv.Perm lv') {m : LeafEntry} (h : IsLeast lv m) :
    IsLeast lv' m :=
  ⟨hp.subset h.1, fun e he => h.2 e (hp.symm.subset he)⟩

theorem scan_perm {lv lv' : LeafVariants} (hp : lv.Perm lv') (hnd : (lv.map LeafEntry.priority).Nodup) :
    lv.foldl selectStep (none, none) = lv'.foldl selectStep (none, none) := by
  by_cases hne : lv = []
  · subst hne; rw [← hp.nil_eq]
  obtain ⟨m, hm⟩ := exists_isLeast hne
  have hnd' := (hp.map LeafEntry.priority).nodup_iff.mp hnd
  obtain ⟨s, h, hs⟩ := scan_of_isLeast hnd hm
  obtain ⟨s', h', hs'⟩ := scan_of_isLeast hnd' (hm.perm hp)
  rw [h, h']
  have hpe := hp.erase m
  have hnde : ((lv.erase m).map LeafEntry.priority).Nodup := hnd.sublist ((List.erase_sublist _ _).map _)
  congr 2
  rcases s with _ | x <;> rcases s' with _ | y <;> simp only at hs hs'
  · rfl
  · rw [hs] at hpe
    exact absurd hs'.1 (by rw [← hpe.nil_eq]; exact List.not_mem_nil _)
  · rw [hs'] at hpe
    exact absurd hs.1 (by rw [hpe.eq_nil]; exact List.not_mem_nil _)
  · exact congrArg some (hs.unique hnde (hs'.perm hpe.symm))

theorem getHighestPrecedence_perm {lv lv' : LeafVariants} (hp : lv.Perm lv')
    (hnd : (lv.map LeafEntry.priority).Nodup) (b : Bool) :
    lv.getHighestPrecedence b = lv'.getHighestPrecedence b := by
  unfold getHighestPrecedence
  rw [hp.length_eq, shouldDelete_perm hp, scan_perm hp hnd]

end LeafVariants

theorem Childs.getHighestPrecedenceValueOfBranch_ofList :
    ∀ (M : List (String × Entry)) (acc : Int32), (Childs.ofList M).getHighestPrecedenceValueOfBranch acc =
      M.foldl (fun a x => min x.2.getHighestPrecedenceValueOfBranch a) acc
  | [], _ => rfl
  | (k, e) :: M, acc => by
    rw [Childs.ofList, Childs.getHighestPrecedenceValueOfBranch, ite_lt_eq_min,
      getHighestPrecedenceValueOfBranch_ofList M]
    rfl

mutual
theorem Entry.getHighestPrecedenceValueOfBranch_canon : ∀ e : Entry,
    e.canon.getHighestPrecedenceValueOfBranch = e.getHighestPrecedenceValueOfBranch
  | .mk n cs lv s r => by
    simp only [Entry.canon, Entry.getHighestPrecedenceValueOfBranch, Childs.getHighestPrecedenceValueOfBranch_ofList,
      Childs.getHighestPrecedenceValueOfBranch_canonList cs,
      LeafVariants.getHighestPrecedenceValue_perm (List.perm_insertionSort (ByKey LeafEntry.owner) lv)]
    rw [(List.perm_insertionSort _ _).foldl_eq' fun _ _ _ _ _ => min_left_comm (α := Int32) _ _ _]
theorem Childs.getHighestPrecedenceValueOfBranch_canonList : ∀ (cs : Childs) (acc : Int32),
    cs.getHighestPrecedenceValueOfBranch acc =
      cs.canonList.foldl (fun a x => min x.2.getHighestPrecedenceValueOfBranch a) acc
  | .nil, _ => rfl
  | .cons k e rest, acc => by
    rw [Childs.getHighestPrecedenceValueOfBranch, Childs.canonList, List.foldl_cons,
      Entry.getHighestPrecedenceValueOfBranch_canon e, ite_lt_eq_min,
      Childs.getHighestPrecedenceValueOfBranch_canonList rest]
end

section Populate

variable (tc : TreeContext) (path : List String) {e : Entry} (hk : e.childs.keys.Nodup)
include hk

theorem Entry.populateElement_canon : e.canon.populateElement tc path = e.populateElement tc path := by
  funext cr elem
  simp only [Entry.populateElement, Entry.lookup_canon hk]
  cases e.childs.lookup elem <;> simp [Entry.getHighestPrecedenceValueOfBranch_canon]

theorem Entry.populateChoiceCaseResolvers_canon :
    (e.canon.populateChoiceCaseResolvers tc path).choicesResolvers =
      (e.populateChoiceCaseResolvers tc path).choicesResolvers := by
  unfold Entry.populateChoiceCaseResolvers
  rw [Entry.schema_canon]
  split
  · simp
  · simp only [Entry.withChoicesResolvers, Entry.choicesResolvers_mk, Entry.populatedResolvers,
      Entry.populateElement_canon tc path hk, Entry.choicesResolvers_canon]

theorem Entry.skipElements_populateChoiceCaseResolvers_canon :
    (e.canon.populateChoiceCaseResolvers tc path).skipElements =
      (e.populateChoiceCaseResolvers tc path).skipElements :=
  Entry.skipElements_eq (by simp [Entry.populateChoiceCaseResolvers_schema])
    (Entry.populateChoiceCaseResolvers_canon tc path hk)

end Populate

theorem Childs.finishInsertionPhase_ofList (tc : TreeContext) (path skip : List String) :
    ∀ M : List (String × Entry), (ofList M).finishInsertionPhase tc path skip =
      ofList (M.map fun x => (x.1, if x.1 ∈ skip then x.2 else x.2.finishInsertionPhase tc (path ++ [x.2.pathElemName])))
  | [] => rfl
  | (k, e) :: M => by rw [ofList, finishInsertionPhase, finishInsertionPhase_ofList tc path skip M]; rfl

mutual
theorem Entry.finishInsertionPhase_canon (tc : TreeContext) : ∀ (path : List String) (e : Entry),
    e.WellFormed path → e.canon.finishInsertionPhase tc path = (e.finishInsertionPhase tc path).canon
  | path, .mk n cs lv s r, hw => by
    have hk := (Entry.wellFormed_iff.mp hw).2.2.nodup_keys
    rw [Entry.finishInsertionPhase_mk_eq, Entry.finishInsertionPhase_mk_eq tc path (.mk n cs lv s r),
      Entry.skipElements_populateChoiceCaseResolvers_canon tc path hk,
      Entry.populateChoiceCaseResolvers_canon tc path hk]
    simp only [Entry.canon, Entry.pathElemName_mk, Entry.childs_mk, Entry.leafVariants_mk, Entry.schema_mk,
      Childs.finishInsertionPhase_ofList,
      Childs.canonList_finishInsertionPhase tc path _ cs (Entry.wellFormed_iff.mp hw).2.2]
    congr 2
    exact List.map_insertionSort _ _ _ _ fun _ _ _ _ => Iff.rfl
theorem Childs.canonList_finishInsertionPhase (tc : TreeContext) : ∀ (path skip : List String) (cs : Childs),
    cs.WellFormed path → (cs.finishInsertionPhase tc path skip).canonList =
      cs.canonList.map fun x =>
        (x.1, if x.1 ∈ skip then x.2 else x.2.finishInsertionPhase tc (path ++ [x.2.pathElemName]))
  | _, _, .nil, _ => rfl
  | path, skip, .cons k c rest, ⟨hn, hc, _, hr⟩ => by
    simp only [Childs.finishInsertionPhase, Childs.canonList, List.map_cons, Entry.pathElemName_canon,
      Childs.canonList_finishInsertionPhase tc path skip rest hr]
    split
    · rfl
    · rw [Entry.finishInsertionPhase_canon tc _ c (by rw [hn]; exact hc)]
end

mutual
theorem Entry.getHighestPrecedence_eq_append (b : Bool) : ∀ (result : List Update) (e : Entry),
    e.getHighestPrecedence b result = result ++ e.getHighestPrecedence b []
  | result, .mk n cs lv s r => by
    simp only [Entry.getHighestPrecedence]
    rw [Childs.getHighestPrecedence_eq_append b _ _ cs]
    conv_rhs => rw [Childs.getHighestPrecedence_eq_append]
    split <;> simp
theorem Childs.getHighestPrecedence_eq_append (b : Bool) : ∀ (skip : List String) (result : List Update)
    (cs : Childs), cs.getHighestPrecedence b skip result = result ++ cs.getHighestPrecedence b skip []
  | _, _, .nil => by simp [Childs.getHighestPrecedence]
  | skip, result, .cons k c rest => by
    simp only [Childs.getHighestPrecedence]
    rw [Childs.getHighestPrecedence_eq_append b skip _ rest,
      Childs.getHighestPrecedence_eq_append b skip (if k ∈ skip then [] else c.getHighestPrecedence b []) rest]
    split
    · simp
    · rw [Entry.getHighestPrecedence_eq_append b result c]; simp
end

theorem Childs.getHighestPrecedence_ofList (b : Bool) (skip : List String) :
    ∀ M : List (String × Entry), (ofList M).getHighestPrecedence b skip [] =
      M.flatMap fun x => if x.1 ∈ skip then [] else x.2.getHighestPrecedence b []
  | [] => rfl
  | (k, e) :: M => by
    rw [ofList, Childs.getHighestPrecedence, Childs.getHighestPrecedence_eq_append,
      getHighestPrecedence_ofList b skip M, List.flatMap_cons]

theorem Childs.every_ofList {Q : Entry → Prop} :
    ∀ M : List (String × Entry), (ofList M).Every Q ↔ ∀ x ∈ M, x.2.Every Q
  | [] => by simp [ofList, Childs.Every]
  | (k, e) :: M => by simp [ofList, Childs.Every, every_ofList M]

mutual
theorem Entry.every_canon {Q : Entry → Prop} (hQ : ∀ e, Q e.canon ↔ Q e) :
    ∀ e : Entry, e.canon.Every Q ↔ e.Every Q
  | .mk n cs lv s r => by
    rw [Entry.every_iff, Entry.every_iff, hQ, Entry.childs_canon, Childs.every_ofList, Entry.childs_mk,
      ← Childs.every_iff_canonList hQ cs]
    simp only [List.mem_insertionSort]
theorem Childs.every_iff_canonList {Q : Entry → Prop} (hQ : ∀ e, Q e.canon ↔ Q e) :
    ∀ cs : Childs, (∀ x ∈ cs.canonList, x.2.Every Q) ↔ cs.Every Q
  | .nil => by simp [Childs.canonList, Childs.Every]
  | .cons k c rest => by
    rw [Childs.canonList, List.forall_mem_cons, Entry.every_canon hQ c, Childs.every_iff_canonList hQ rest]
    rfl
end

mutual
theorem Entry.getHighestPrecedence_canon (b : Bool) : ∀ e : Entry,
    e.Every (fun e => (e.leafVariants.map LeafEntry.priority).Nodup) →
      (e.canon.getHighestPrecedence b []).Perm (e.getHighestPrecedence b [])
  | .mk n cs lv s r, ⟨hnd, hc⟩ => by
    simp only [Entry.canon, Entry.getHighestPrecedence]
    rw [Childs.getHighestPrecedence_eq_append, Childs.getHighestPrecedence_eq_append b _ _ cs,
      Childs.getHighestPrecedence_ofList,
      ← LeafVariants.getHighestPrecedence_perm (List.perm_insertionSort (ByKey LeafEntry.owner) lv).symm hnd]
    exact (((List.perm_insertionSort _ _).flatMap_right _).trans
      (Childs.getHighestPrecedence_canonList b _ cs hc)).append_left _
theorem Childs.getHighestPrecedence_canonList (b : Bool) (skip : List String) : ∀ cs : Childs,
    cs.Every (fun e => (e.leafVariants.map LeafEntry.priority).Nodup) →
      (cs.canonList.flatMap fun x => if x.1 ∈ skip then [] else x.2.getHighestPrecedence b []).Perm
        (cs.getHighestPrecedence b skip [])
  | .nil, _ => by simp [Childs.canonList, Childs.getHighestPrecedence]
  | .cons k c rest, ⟨hc, hr⟩ => by
    rw [Childs.canonList, List.flatMap_cons, Childs.getHighestPrecedence, Childs.getHighestPrecedence_eq_append]
    refine List.Perm.append ?_ (Childs.getHighestPrecedence_canonList b skip rest hr)
    split
    · exact List.Perm.refl _
    · exact Entry.getHighestPrecedence_canon b c hc
end

theorem getAncestorSchema_error : ∀ {anc : List (Option SchemaElem)} {f : Fault},
    getAncestorSchema anc = .error f → f = Fault.nilDereference
  | [], _, h => by cases h; rfl
  | some _ :: _, _, h => by cases h
  | none :: anc, _, h => by
    simp only [getAncestorSchema] at h
    cases hg : getAncestorSchema anc with
    | error => rw [hg] at h; cases h; exact getAncestorSchema_error hg
    | ok => rw [hg] at h; cases h

theorem switchedCaseDeletes_eq_append (path : List String) (schema : Option SchemaElem)
    (resolvers : ChoiceCasesResolvers) (deletes : List (List String)) :
    switchedCaseDeletes path schema resolvers deletes = deletes ++ switchedCaseDeletes path schema resolvers [] := by
  unfold switchedCaseDeletes; split <;> simp

theorem Entry.isDeleteKeyAttributesInLevelDown_eq_append (s : Entry) (path keys : List String)
    (result : List (List String)) :
    s.isDeleteKeyAttributesInLevelDown path keys result = result ++ s.isDeleteKeyAttributesInLevelDown path keys [] := by
  unfold Entry.isDeleteKeyAttributesInLevelDown; dsimp only; split <;> simp

section Regular

variable {path : List String} {lv : LeafVariants} {schema : Option SchemaElem}
  {resolvers : ChoiceCasesResolvers}

theorem regularDeletes_eq_map {cd : List (List String) → Except Fault (List (List String))}
    (hcd : ∀ d, cd d = (cd []).map (d ++ ·)) (deletes : List (List String)) :
    regularDeletes path lv schema resolvers deletes cd =
      (regularDeletes path lv schema resolvers [] cd).map (deletes ++ ·) := by
  unfold regularDeletes
  dsimp only
  rw [switchedCaseDeletes_eq_append path schema resolvers deletes]
  generalize switchedCaseDeletes path schema resolvers [] = X
  have hmap : cd (deletes ++ X) = (cd ([] ++ X)).map (deletes ++ ·) := by
    rw [hcd (deletes ++ X), hcd ([] ++ X)]
    cases cd [] <;> simp [Except.map]
  cases lv.shouldDelete <;> rcases lv with _ | ⟨l, ls⟩
  all_goals first | exact hmap | simp [Except.map, pure, Except.pure]

theorem regularDeletes_error {cd : List (List String) → Except Fault (List (List String))}
    {deletes : List (List String)} {f : Fault} (h : regularDeletes path lv schema resolvers deletes cd = .error f) :
    ∃ d, cd d = .error f := by
  unfold regularDeletes at h
  split at h
  · cases h
  · exact ⟨_, h⟩

theorem regularDeletes_perm {lv' : LeafVariants} {q : List String} (hlv : lv.Perm lv')
    (hq : ∀ l ∈ lv, l.update.path = q) {cd cd' : List (List String) → Except Fault (List (List String))}
    (hcd : ∀ d, (cd d).map Multiset.ofList = (cd' d).map Multiset.ofList) (deletes : List (List String)) :
    (regularDeletes path lv schema resolvers deletes cd).map Multiset.ofList =
      (regularDeletes path lv' schema resolvers deletes cd').map Multiset.ofList := by
  unfold regularDeletes
  dsimp only
  rw [← LeafVariants.shouldDelete_perm hlv]
  rcases lv with _ | ⟨l, ls⟩
  · rw [← hlv.nil_eq]; exact hcd _
  rcases lv' with _ | ⟨l', ls'⟩
  · exact absurd hlv.length_eq (by simp)
  cases LeafVariants.shouldDelete (l :: ls)
  · exact hcd _
  · simp only [hq l (List.mem_cons_self _ _), hq l' (hlv.symm.subset (List.mem_cons_self _ _))]

end Regular

mutual
theorem Entry.getDeletes_eq_map : ∀ (path : List String) (anc : List (Option SchemaElem))
    (deletes : List (List String)) (e : Entry),
    e.getDeletes path anc deletes = (e.getDeletes path anc []).map (deletes ++ ·)
  | path, anc, deletes, .mk n cs lv schema resolvers => by
    have hcd : ∀ a d, cs.getDeletes path a d = (cs.getDeletes path a []).map (d ++ ·) :=
      fun a d => Childs.getDeletes_eq_map path a d cs
    simp only [Entry.getDeletes]
    cases schema with
    | some _ => exact regularDeletes_eq_map (hcd _) deletes
    | none =>
      cases getAncestorSchema anc with
      | error => rfl
      | ok sl =>
        simp only [bind, Except.bind]
        split
        · rename_i cont _
          split
          · rw [Entry.isDeleteKeyAttributesInLevelDown_eq_append _ _ _ deletes]
            generalize (Entry.mk n cs lv none resolvers).isDeleteKeyAttributesInLevelDown path cont.keys [] = Y
            rcases Y with _ | ⟨y, Y⟩
            · simp only [List.append_nil, List.nil_append, if_true]
              exact hcd _ deletes
            · simp [Except.map, pure, Except.pure]
          · exact regularDeletes_eq_map (hcd _) deletes
        · exact regularDeletes_eq_map (hcd _) deletes
theorem Childs.getDeletes_eq_map : ∀ (path : List String) (anc : List (Option SchemaElem))
    (deletes : List (List String)) (cs : Childs),
    cs.getDeletes path anc deletes = (cs.getDeletes path anc []).map (deletes ++ ·)
  | _, _, _, .nil => by simp [Childs.getDeletes, pure, Except.pure, Except.map]
  | path, anc, deletes, .cons k c rest => by
    simp only [Childs.getDeletes, bind, Except.bind]
    rw [Entry.getDeletes_eq_map _ _ deletes c]
    cases c.getDeletes (path ++ [c.pathElemName]) anc [] with
    | error => rfl
    | ok d =>
      simp only [Except.map]
      rw [Childs.getDeletes_eq_map _ _ (deletes ++ d) rest, Childs.getDeletes_eq_map _ _ d rest]
      cases rest.getDeletes path anc [] <;> simp [Except.map]
end

mutual
theorem Entry.getDeletes_error : ∀ {path : List String} {anc : List (Option SchemaElem)}
    {deletes : List (List String)} {f : Fault} (e : Entry),
    e.getDeletes path anc deletes = .error f → f = Fault.nilDereference
  | path, anc, deletes, f, .mk n cs lv schema resolvers, h => by
    have hreg : ∀ {a d}, regularDeletes path lv schema resolvers d (cs.getDeletes path a) = .error f →
        f = Fault.nilDereference := fun h' => by
      obtain ⟨d, hd⟩ := regularDeletes_error h'
      exact Childs.getDeletes_error cs hd
    simp only [Entry.getDeletes] at h
    cases schema with
    | some _ => exact hreg h
    | none =>
      cases hg : getAncestorSchema anc with
      | error => rw [hg] at h; cases h; exact getAncestorSchema_error hg
      | ok sl =>
        simp only [hg, bind, Except.bind] at h
        split at h
        · split at h
          · split at h
            · exact Childs.getDeletes_error cs h
            · cases h
          · exact hreg h
        · exact hreg h
theorem Childs.getDeletes_error : ∀ {path : List String} {anc : List (Option SchemaElem)}
    {deletes : List (List String)} {f : Fault} (cs : Childs),
    cs.getDeletes path anc deletes = .error f → f = Fault.nilDereference
  | _, _, _, _, .nil, h => by cases h
  | path, anc, deletes, f, .cons k c rest, h => by
    simp only [Childs.getDeletes, bind, Except.bind] at h
    cases hc : c.getDeletes (path ++ [c.pathElemName]) anc deletes with
    | error => rw [hc] at h; cases h; exact Entry.getDeletes_error c hc
    | ok d => rw [hc] at h; exact Childs.getDeletes_error rest h
end

theorem map_ofList_map_append (X : Except Fault (List (List String))) (d : List (List String)) :
    (X.map (d ++ ·)).map Multiset.ofList = (X.map Multiset.ofList).map (Multiset.ofList d + ·) := by
  cases X <;> simp [Except.map]

theorem Childs.getDeletes_cons_map (path : List String) (anc : List (Option SchemaElem)) (k : String)
    (c : Entry) (rest : Childs) :
    ((Childs.cons k c rest).getDeletes path anc []).map Multiset.ofList =
      ((c.getDeletes (path ++ [c.pathElemName]) anc []).map Multiset.ofList).bind fun D =>
        ((rest.getDeletes path anc []).map Multiset.ofList).map (D + ·) := by
  simp only [Childs.getDeletes, bind, Except.bind]
  cases c.getDeletes (path ++ [c.pathElemName]) anc [] with
  | error => rfl
  | ok d => exact (congrArg _ (Childs.getDeletes_eq_map _ _ d rest)).trans (map_ofList_map_append _ d)

theorem Childs.ofList_cons (x : String × Entry) (M : List (String × Entry)) :
    ofList (x :: M) = .cons x.1 x.2 (ofList M) := rfl

theorem Childs.getDeletes_ofList_perm (path : List String) (anc : List (Option SchemaElem))
    {M M' : List (String × Entry)} (hp : M.Perm M') :
    ((ofList M).getDeletes path anc []).map Multiset.ofList =
      ((ofList M').getDeletes path anc []).map Multiset.ofList := by
  induction hp with
  | nil => rfl
  | cons x _ ih => rw [ofList_cons, ofList_cons, getDeletes_cons_map, getDeletes_cons_map, ih]
  | swap x y M =>
    simp only [ofList_cons, getDeletes_cons_map]
    cases hy : y.2.getDeletes (path ++ [y.2.pathElemName]) anc [] <;>
      cases hx : x.2.getDeletes (path ++ [x.2.pathElemName]) anc []
    · simp [Except.map, Except.bind, Entry.getDeletes_error _ hx, Entry.getDeletes_error _ hy]
    · rfl
    · rfl
    · cases (ofList M).getDeletes path anc [] <;> simp only [Except.map, Except.bind]
      exact congrArg Except.ok (add_left_comm _ _ _)
  | trans _ _ ih₁ ih₂ => exact ih₁.trans ih₂

theorem perm_all_eq {α : Type} {l l' : List α} (hp : l.Perm l') (p : α → Bool) : l.all p = l'.all p :=
  Bool.eq_iff_iff.mpr (by simp only [List.all_eq_true, hp.mem_iff])

theorem Childs.allShouldDelete_ofList :
    ∀ M : List (String × Entry), (ofList M).allShouldDelete = M.all (·.2.shouldDelete)
  | [] => rfl
  | (k, e) :: M => by rw [ofList, allShouldDelete, allShouldDelete_ofList M]; rfl

mutual
theorem Entry.shouldDelete_canon : ∀ e : Entry, e.canon.shouldDelete = e.shouldDelete
  | .mk n cs lv s r => by
    have hp := List.perm_insertionSort (ByKey LeafEntry.owner) lv
    simp only [Entry.canon, Entry.shouldDelete, hp.length_eq, LeafVariants.shouldDelete_perm hp,
      Childs.allShouldDelete_ofList, Childs.allShouldDelete_canonList cs,
      perm_all_eq (List.perm_insertionSort _ _)]
theorem Childs.allShouldDelete_canonList :
    ∀ cs : Childs, cs.allShouldDelete = cs.canonList.all (·.2.shouldDelete)
  | .nil => rfl
  | .cons k c rest => by
    simp only [Childs.allShouldDelete, Childs.canonList, List.all_cons, Entry.shouldDelete_canon c,
      Childs.allShouldDelete_canonList rest]
end

theorem Entry.isDeleteKeyAttributesInLevelDown_canon {e : Entry} (hk : e.childs.keys.Nodup)
    (path keys : List String) (result : List (List String)) :
    e.canon.isDeleteKeyAttributesInLevelDown path keys result =
      e.isDeleteKeyAttributesInLevelDown path keys result := by
  unfold Entry.isDeleteKeyAttributesInLevelDown
  dsimp only
  congr 3
  funext n
  rw [Entry.lookup_canon hk]
  cases e.childs.lookup n <;> simp [Entry.shouldDelete_canon]

mutual
theorem Entry.getDeletes_canon : ∀ (path : List String) (anc : List (Option SchemaElem)) (e : Entry),
    e.WellFormed path →
      (e.canon.getDeletes path anc []).map Multiset.ofList = (e.getDeletes path anc []).map Multiset.ofList
  | path, anc, .mk n cs lv schema resolvers, hw => by
    obtain ⟨hq, -, hc⟩ := Entry.wellFormed_iff.mp hw
    have hch : ∀ a d, ((Childs.ofList (cs.canonList.insertionSort (ByKey Prod.fst))).getDeletes path a d).map
        Multiset.ofList = (cs.getDeletes path a d).map Multiset.ofList := fun a d => by
      rw [Childs.getDeletes_eq_map _ _ d, Childs.getDeletes_eq_map _ _ d cs, map_ofList_map_append,
        map_ofList_map_append, Childs.getDeletes_ofList_perm path a (List.perm_insertionSort _ _),
        Childs.getDeletes_canonList path a cs hc]
    have hreg : ∀ d, (regularDeletes path (lv.insertionSort (ByKey LeafEntry.owner)) schema resolvers d
        ((Childs.ofList (cs.canonList.insertionSort (ByKey Prod.fst))).getDeletes path (schema :: anc))).map
          Multiset.ofList =
        (regularDeletes path lv schema resolvers d (cs.getDeletes path (schema :: anc))).map Multiset.ofList :=
      regularDeletes_perm (List.perm_insertionSort _ lv) (fun l hl => hq l ((List.mem_insertionSort _).mp hl))
        (hch _)
    have hkey := Entry.isDeleteKeyAttributesInLevelDown_canon (e := .mk n cs lv none resolvers) hc.nodup_keys
    simp only [Entry.canon] at hkey ⊢
    simp only [Entry.getDeletes]
    cases schema with
    | some _ => exact hreg []
    | none =>
      cases getAncestorSchema anc with
      | error => rfl
      | ok sl =>
        simp only [bind, Except.bind]
        split
        · split
          · rw [hkey]
            split
            · exact hch _ _
            · rfl
          · exact hreg []
        · exact hreg []
theorem Childs.getDeletes_canonList : ∀ (path : List String) (anc : List (Option SchemaElem)) (cs : Childs),
    cs.WellFormed path → ((Childs.ofList cs.canonList).getDeletes path anc []).map Multiset.ofList =
      (cs.getDeletes path anc []).map Multiset.ofList
  | _, _, .nil, _ => rfl
  | path, anc, .cons k c rest, ⟨hn, hc, _, hr⟩ => by
    rw [Childs.canonList, Childs.ofList_cons, Childs.getDeletes_cons_map, Childs.getDeletes_cons_map,
      Childs.getDeletes_canonList path anc rest hr, Entry.pathElemName_canon,
      Entry.getDeletes_canon _ anc c (by rw [hn]; exact hc)]
end

end DataServer
