import DataServer.Cache.Update
import Mathlib.Data.List.Nodup

/-! `LeafVariants`: the claims of several owners on one leaf, the flags a transaction sets on
them, and the precedence scan of `GetHighestPrecedence` that picks what goes to the device. -/
namespace DataServer

/-- `LeafEntry`: one owner's claim on a leaf, with the flags of the running transaction. -/
structure LeafEntry where
  update : Update
  isNew : Bool
  delete : Bool
  isUpdated : Bool
deriving DecidableEq, Repr

namespace LeafEntry

def owner (l : LeafEntry) : String := l.update.owner
def priority (l : LeafEntry) : Int32 := l.update.priority

/-- Modelled from the spec: `NewLeafEntry` is not in the sources. A fresh variant is marked new as
the caller asks, and neither updated nor deleted. -/
def newLeafEntry (c : Update) (new : Bool) : LeafEntry := ⟨c, new, false, false⟩

/-- Modelled from the spec: `LeafEntry.MarkUpdate` is not in the sources. It stores the new value,
marks the variant updated and clears its delete flag. -/
def markUpdate (l : LeafEntry) (c : Update) : LeafEntry :=
  { l with update := c, isUpdated := true, delete := false }

/-- Modelled from the spec: `LeafEntry.MarkDelete` is not in the sources. It sets the delete flag.
-/
def markDelete (l : LeafEntry) : LeafEntry := { l with delete := true }

@[simp] theorem owner_markDelete (l : LeafEntry) : l.markDelete.owner = l.owner := rfl
@[simp] theorem update_markDelete (l : LeafEntry) : l.markDelete.update = l.update := rfl
@[simp] theorem delete_markDelete (l : LeafEntry) : l.markDelete.delete = true := rfl
@[simp] theorem update_markUpdate (l : LeafEntry) (c : Update) : (l.markUpdate c).update = c := rfl
@[simp] theorem delete_markUpdate (l : LeafEntry) (c : Update) : (l.markUpdate c).delete = false := rfl

end LeafEntry

/-- `LeafVariants`: the variants of one leaf, in insertion order. -/
abbrev LeafVariants := List LeafEntry

namespace LeafVariants

/-- `LeafVariants.shouldDelete`: the leaf has variants, it is not only held by `running`, and every
variant is deleted or owned by `running`. -/
def shouldDelete : LeafVariants → Bool
  | [] => false
  | lv@(l :: _) =>
    !(l.owner == runningIntentName && lv.length == 1) &&
      lv.all fun l => l.delete || l.owner == runningIntentName

/-- `LeafVariants.GetHighestPrecedenceValue`: the least priority of a non-deleted variant. -/
def getHighestPrecedenceValue (lv : LeafVariants) : Int32 :=
  lv.foldl (fun result e => if !e.delete && e.priority < result then e.priority else result)
    Int32.maxInt32

/-- One iteration of the selection loop of `GetHighestPrecedence`, on the pair `(highest,
secondHighest)`. -/
def selectStep : Option LeafEntry × Option LeafEntry → LeafEntry → Option LeafEntry × Option LeafEntry
  | (none, secondHighest), e => (some e, secondHighest)
  | (some highest, secondHighest), e =>
    if e.priority < highest.priority then (some e, some highest)
    else match secondHighest with
      | none => (some highest, some e)
      | some s => if e.priority < s.priority then (some highest, some e) else (some highest, some s)

/-- `LeafVariants.GetHighestPrecedence`. -/
def getHighestPrecedence (lv : LeafVariants) (onlyIfPrioChanged : Bool) : Option LeafEntry :=
  if lv.length = 0 then none
  else if lv.shouldDelete then none
  else
    match lv.foldl selectStep (none, none) with
    -- the scan of a non-empty list always sets `highest`
    | (none, _) => none
    | (some highest, secondHighest) =>
      if !onlyIfPrioChanged then
        if !highest.delete then some highest else secondHighest
      else if !highest.delete then
        if highest.isNew || highest.isUpdated then some highest else none
      else match secondHighest with
        | some s => if !s.delete then some s else none
        | none => none

/-- `LeafVariants.GetByOwner`: the first variant of the owner. -/
def getByOwner (owner : String) (lv : LeafVariants) : Option LeafEntry :=
  lv.find? fun e => e.owner == owner

/-- A write through the pointer `GetByOwner` returns: `f` is applied to the first variant of the
owner, if there is one. -/
def modifyByOwner (owner : String) (f : LeafEntry → LeafEntry) : LeafVariants → LeafVariants
  | [] => []
  | e :: lv => if e.owner = owner then f e :: lv else e :: modifyByOwner owner f lv

/-- The terminal branch of `AddCacheUpdateRecursive`: the owner's variant keeps its value and loses
the delete flag when the update is equal to it, takes the update as an updated value otherwise,
and a new variant is appended when the owner has none. -/
def addCacheUpdate (lv : LeafVariants) (c : Update) (new : Bool) : LeafVariants :=
  match lv.getByOwner c.owner with
  | some _ => lv.modifyByOwner c.owner fun leafVariant =>
      if leafVariant.update.equalSkipPath c then { leafVariant with delete := false }
      else leafVariant.markUpdate c
  | none => lv ++ [LeafEntry.newLeafEntry c new]

/-- The leaf part of `MarkOwnerDelete`. -/
def markOwnerDelete (o : String) (lv : LeafVariants) : LeafVariants :=
  lv.modifyByOwner o LeafEntry.markDelete

theorem getByOwner_eq_none {o : String} {lv : LeafVariants} :
    lv.getByOwner o = none ↔ o ∉ lv.map LeafEntry.owner := by
  simp [getByOwner, List.find?_eq_none]

theorem getByOwner_isSome {o : String} {lv : LeafVariants} :
    (lv.getByOwner o).isSome ↔ o ∈ lv.map LeafEntry.owner := by
  rw [← not_iff_not, Option.not_isSome_iff_eq_none, getByOwner_eq_none]

theorem modifyByOwner_of_not_mem {o : String} {f : LeafEntry → LeafEntry} :
    ∀ {lv : LeafVariants}, o ∉ lv.map LeafEntry.owner → lv.modifyByOwner o f = lv
  | [], _ => rfl
  | e :: lv, h => by
    simp only [List.map_cons, List.mem_cons, not_or] at h
    simp [modifyByOwner, Ne.symm h.1, modifyByOwner_of_not_mem h.2]

theorem modifyByOwner_eq_map {o : String} {f : LeafEntry → LeafEntry} :
    ∀ {lv : LeafVariants}, (lv.map LeafEntry.owner).Nodup →
      lv.modifyByOwner o f = lv.map fun l => if l.owner = o then f l else l
  | [], _ => rfl
  | e :: lv, h => by
    rw [List.map_cons, List.nodup_cons] at h
    by_cases he : e.owner = o
    · subst he
      have hmap : lv.map (fun l => if l.owner = e.owner then f l else l) = lv := by
        conv_rhs => rw [← List.map_id lv]
        exact List.map_congr_left fun l hl =>
          if_neg fun (h' : l.owner = e.owner) => h.1 (h' ▸ List.mem_map_of_mem _ hl)
      simp [modifyByOwner, hmap]
    · simp [modifyByOwner, he, modifyByOwner_eq_map h.2]

theorem map_owner_modifyByOwner {o : String} {f : LeafEntry → LeafEntry}
    (hf : ∀ l, l.owner = o → (f l).owner = l.owner) :
    ∀ lv : LeafVariants, (lv.modifyByOwner o f).map LeafEntry.owner = lv.map LeafEntry.owner
  | [] => rfl
  | e :: lv => by
    by_cases he : e.owner = o <;> simp [modifyByOwner, he, hf, map_owner_modifyByOwner hf lv]

theorem mem_modifyByOwner {o : String} {f : LeafEntry → LeafEntry} {l : LeafEntry} :
    ∀ {lv : LeafVariants}, l ∈ lv.modifyByOwner o f → l ∈ lv ∨ ∃ e ∈ lv, e.owner = o ∧ l = f e
  | [], h => by simp [modifyByOwner] at h
  | e :: lv, h => by
    unfold modifyByOwner at h
    split at h
    · rcases List.mem_cons.mp h with rfl | h
      · exact .inr ⟨e, List.mem_cons_self _ _, ‹_›, rfl⟩
      · exact .inl (List.mem_cons_of_mem _ h)
    · rcases List.mem_cons.mp h with rfl | h
      · exact .inl (List.mem_cons_self _ _)
      · rcases mem_modifyByOwner h with h | ⟨e', he', ho, rfl⟩
        · exact .inl (List.mem_cons_of_mem _ h)
        · exact .inr ⟨e', List.mem_cons_of_mem _ he', ho, rfl⟩

/-- The write `AddCacheUpdateRecursive` makes through `GetByOwner` at the leaf. -/
def refreshVariant (c : Update) (leafVariant : LeafEntry) : LeafEntry :=
  if leafVariant.update.equalSkipPath c then { leafVariant with delete := false }
  else leafVariant.markUpdate c

theorem owner_refreshVariant {c : Update} {l : LeafEntry} (h : l.owner = c.owner) :
    (refreshVariant c l).owner = l.owner := by
  unfold refreshVariant; split
  · rfl
  · exact h.symm

theorem addCacheUpdate_of_mem {c : Update} {new : Bool} {lv : LeafVariants}
    (h : c.owner ∈ lv.map LeafEntry.owner) :
    lv.addCacheUpdate c new = lv.modifyByOwner c.owner (refreshVariant c) := by
  obtain ⟨l, hl⟩ := Option.isSome_iff_exists.mp (getByOwner_isSome.mpr h)
  simp only [addCacheUpdate, hl]; rfl

theorem addCacheUpdate_of_not_mem {c : Update} {new : Bool} {lv : LeafVariants}
    (h : c.owner ∉ lv.map LeafEntry.owner) :
    lv.addCacheUpdate c new = lv ++ [LeafEntry.newLeafEntry c new] := by
  simp only [addCacheUpdate, getByOwner_eq_none.mpr h]

theorem map_owner_addCacheUpdate (c : Update) (new : Bool) (lv : LeafVariants) :
    (lv.addCacheUpdate c new).map LeafEntry.owner =
      if c.owner ∈ lv.map LeafEntry.owner then lv.map LeafEntry.owner
      else lv.map LeafEntry.owner ++ [c.owner] := by
  split
  · rw [addCacheUpdate_of_mem ‹_›, map_owner_modifyByOwner (fun _ => owner_refreshVariant)]
  · rw [addCacheUpdate_of_not_mem ‹_›]; simp [LeafEntry.newLeafEntry, LeafEntry.owner]

theorem nodup_addCacheUpdate {c : Update} {new : Bool} {lv : LeafVariants}
    (h : (lv.map LeafEntry.owner).Nodup) : ((lv.addCacheUpdate c new).map LeafEntry.owner).Nodup := by
  rw [map_owner_addCacheUpdate]
  split
  · exact h
  · rename_i hm
    exact h.append (List.nodup_singleton _) fun x hx hx' => hm ((List.mem_singleton.mp hx') ▸ hx)

theorem path_addCacheUpdate {c : Update} {new : Bool} {lv : LeafVariants} {p : List String}
    (hc : c.path = p) (h : ∀ l ∈ lv, l.update.path = p) :
    ∀ l ∈ lv.addCacheUpdate c new, l.update.path = p := by
  intro l hl
  by_cases hm : c.owner ∈ lv.map LeafEntry.owner
  · rw [addCacheUpdate_of_mem hm] at hl
    rcases mem_modifyByOwner hl with hl | ⟨e, he, -, rfl⟩
    · exact h l hl
    · unfold refreshVariant; split
      · exact h e he
      · exact hc
  · rw [addCacheUpdate_of_not_mem hm] at hl
    rcases List.mem_append.mp hl with hl | hl
    · exact h l hl
    · rw [List.mem_singleton.mp hl]; exact hc

theorem filter_owner_addCacheUpdate {c : Update} {new : Bool} {lv : LeafVariants}
    (hnd : (lv.map LeafEntry.owner).Nodup) (hp : ∀ l ∈ lv, l.update.path = c.path) :
    ∃ l, (lv.addCacheUpdate c new).filter (fun l => l.owner = c.owner) = [l] ∧ l.update = c := by
  by_cases hm : c.owner ∈ lv.map LeafEntry.owner
  · rw [addCacheUpdate_of_mem hm, modifyByOwner_eq_map hnd]
    obtain ⟨e, he, heo⟩ := List.mem_map.mp hm
    obtain ⟨pre, post, rfl⟩ := List.append_of_mem he
    rw [List.map_append, List.map_cons, List.nodup_append, List.nodup_cons] at hnd
    have hpre : ∀ x ∈ pre, x.owner ≠ c.owner := fun x hx h' =>
      hnd.2.2 (List.mem_map_of_mem _ hx) (List.mem_cons.mpr (.inl (h'.trans heo.symm)))
    have hpost : ∀ x ∈ post, x.owner ≠ c.owner := fun x hx h' =>
      hnd.2.1.1 (List.mem_map.mpr ⟨x, hx, h'.trans heo.symm⟩)
    refine ⟨refreshVariant c e, ?_, ?_⟩
    · rw [List.map_append, List.map_cons, List.filter_append, List.filter_cons,
        List.filter_eq_nil_iff.mpr (by simpa using fun x hx => by simp [hpre x hx]),
        List.filter_eq_nil_iff.mpr (by simpa using fun x hx => by simp [hpost x hx])]
      simp [heo, owner_refreshVariant heo]
    · unfold refreshVariant; split
      · exact Update.eq_of_equalSkipPath ‹_› (hp e (by simp))
      · rfl
  · rw [addCacheUpdate_of_not_mem hm]
    refine ⟨LeafEntry.newLeafEntry c new, ?_, rfl⟩
    rw [List.filter_append, List.filter_eq_nil_iff.mpr fun x hx h' => hm ?_]
    · simp [LeafEntry.newLeafEntry, LeafEntry.owner]
    · exact List.mem_map.mpr ⟨x, hx, by simpa using h'⟩

theorem map_owner_markOwnerDelete (o : String) (lv : LeafVariants) :
    (lv.markOwnerDelete o).map LeafEntry.owner = lv.map LeafEntry.owner := by
  exact @map_owner_modifyByOwner o LeafEntry.markDelete (fun _ _ => rfl) lv

theorem path_markOwnerDelete {o : String} {lv : LeafVariants} {p : List String}
    (h : ∀ l ∈ lv, l.update.path = p) : ∀ l ∈ lv.markOwnerDelete o, l.update.path = p := by
  intro l hl
  rcases mem_modifyByOwner hl with hl | ⟨e, he, -, rfl⟩
  · exact h l hl
  · exact h e he

theorem getByOwner_modifyByOwner {o : String} {f : LeafEntry → LeafEntry}
    (hf : ∀ l, l.owner = o → (f l).owner = o) :
    ∀ lv : LeafVariants, (lv.modifyByOwner o f).getByOwner o = (lv.getByOwner o).map f
  | [] => rfl
  | e :: lv => by
    by_cases he : e.owner = o
    · simp [modifyByOwner, getByOwner, he, hf e he]
    · have ih := getByOwner_modifyByOwner hf lv
      simp only [getByOwner] at ih
      simp [modifyByOwner, getByOwner, he, ih]

theorem filter_modifyByOwner {o : String} {f : LeafEntry → LeafEntry}
    (hf : ∀ l, l.owner = o → (f l).owner = o) :
    ∀ lv : LeafVariants, (lv.modifyByOwner o f).filter (·.owner ≠ o) = lv.filter (·.owner ≠ o)
  | [] => rfl
  | e :: lv => by
    by_cases he : e.owner = o
    · simp [modifyByOwner, he, hf e he]
    · simpa [modifyByOwner, he] using filter_modifyByOwner hf lv

/-- The owner's variant after the terminal insert of `c`, from the one before. -/
def ownerInsert (c : Update) (new : Bool) : Option LeafEntry → LeafEntry
  | some v => refreshVariant c v
  | none => LeafEntry.newLeafEntry c new

theorem getByOwner_addCacheUpdate (c : Update) (new : Bool) (lv : LeafVariants) :
    (lv.addCacheUpdate c new).getByOwner c.owner = some (ownerInsert c new (lv.getByOwner c.owner)) := by
  by_cases hm : c.owner ∈ lv.map LeafEntry.owner
  · obtain ⟨v, hv⟩ := Option.isSome_iff_exists.mp (getByOwner_isSome.mpr hm)
    rw [addCacheUpdate_of_mem hm, getByOwner_modifyByOwner (fun l h => (owner_refreshVariant h).trans h), hv]
    rfl
  · have hnone := getByOwner_eq_none.mpr hm
    rw [addCacheUpdate_of_not_mem hm, hnone]
    simp only [getByOwner, LeafEntry.owner] at hnone
    simp [getByOwner, List.find?_append, hnone, ownerInsert, LeafEntry.newLeafEntry, LeafEntry.owner]

theorem filter_addCacheUpdate (c : Update) (new : Bool) (lv : LeafVariants) :
    (lv.addCacheUpdate c new).filter (·.owner ≠ c.owner) = lv.filter (·.owner ≠ c.owner) := by
  by_cases hm : c.owner ∈ lv.map LeafEntry.owner
  · rw [addCacheUpdate_of_mem hm, filter_modifyByOwner (fun l h => (owner_refreshVariant h).trans h)]
  · rw [addCacheUpdate_of_not_mem hm]
    simp [LeafEntry.newLeafEntry, LeafEntry.owner]

/-- What the selection loop knows after scanning `xs`: `highest` is the first variant of least
priority, and `secondHighest` is a least-priority variant among the others (none if there are no
others). -/
def SelectInv (xs : List LeafEntry) : Option LeafEntry × Option LeafEntry → Prop
  | (none, none) => xs = []
  | (none, some _) => False
  | (some h, s) => ∃ pre post, xs = pre ++ h :: post ∧
      (∀ e ∈ pre, h.priority < e.priority) ∧ (∀ e ∈ post, h.priority ≤ e.priority) ∧
      match s with
      | none => pre ++ post = []
      | some s => s ∈ pre ++ post ∧ ∀ e ∈ pre ++ post, s.priority ≤ e.priority

theorem le_of_mem_split {pre post : List LeafEntry} {h : LeafEntry} (hpre : ∀ e ∈ pre, h.priority < e.priority)
    (hpost : ∀ e ∈ post, h.priority ≤ e.priority) : ∀ x ∈ pre ++ h :: post, h.priority ≤ x.priority := by
  simp only [List.mem_append, List.mem_cons]
  rintro x (hx | rfl | hx)
  exacts [le_of_lt (hpre x hx), le_refl _, hpost x hx]

theorem erase_of_lt {pre post : List LeafEntry} {h : LeafEntry} (hpre : ∀ e ∈ pre, h.priority < e.priority) :
    (pre ++ h :: post).erase h = pre ++ post := by
  rw [List.erase_append_right _ fun hm => lt_irrefl _ (hpre _ hm), List.erase_cons_head]

theorem selectInv_keep {pre post : List LeafEntry} {h e : LeafEntry} {s : Option LeafEntry}
    (hpre : ∀ x ∈ pre, h.priority < x.priority) (hpost : ∀ x ∈ post, h.priority ≤ x.priority)
    (hhe : h.priority ≤ e.priority)
    (hs : match s with
      | none => pre ++ (post ++ [e]) = []
      | some s => s ∈ pre ++ (post ++ [e]) ∧ ∀ x ∈ pre ++ (post ++ [e]), s.priority ≤ x.priority) :
    SelectInv (pre ++ h :: post ++ [e]) (some h, s) := by
  refine ⟨pre, post ++ [e], by simp, hpre, fun x hx => ?_, hs⟩
  rcases List.mem_append.mp hx with hx | hx
  · exact hpost x hx
  · exact (List.mem_singleton.mp hx) ▸ hhe

theorem selectInv_step {xs : List LeafEntry} {st : Option LeafEntry × Option LeafEntry}
    (hinv : SelectInv xs st) (e : LeafEntry) : SelectInv (xs ++ [e]) (selectStep st e) := by
  rcases st with ⟨_ | h, _ | s⟩
  · have hxs : xs = [] := hinv
    subst hxs
    exact ⟨[], [], rfl, by simp, by simp, rfl⟩
  · exact hinv.elim
  all_goals
    obtain ⟨pre, post, rfl, hpre, hpost, hs⟩ := hinv
    have hle := le_of_mem_split hpre hpost
    by_cases hlt : e.priority < h.priority
    · simp only [selectStep, hlt, if_true]
      refine ⟨pre ++ h :: post, [], by simp, fun x hx => lt_of_lt_of_le hlt (hle x hx), by simp,
        by simp, fun x hx => hle x (by simpa using hx)⟩
    have hhe : h.priority ≤ e.priority := le_of_not_lt hlt
  · simp only [List.append_eq_nil] at hs
    simp only [selectStep, hlt, if_false]
    exact selectInv_keep hpre hpost hhe ⟨by simp [hs.1, hs.2], by simp [hs.1, hs.2]⟩
  · obtain ⟨hsm, hsl⟩ := hs
    by_cases hes : e.priority < s.priority
    · simp only [selectStep, hlt, hes, if_true, if_false]
      refine selectInv_keep hpre hpost hhe ⟨by simp, fun x hx => ?_⟩
      simp only [← List.append_assoc, List.mem_append, List.mem_singleton] at hx
      rcases hx with hx | rfl
      · exact le_of_lt (lt_of_lt_of_le hes (hsl x (List.mem_append.mpr hx)))
      · exact le_refl _
    · simp only [selectStep, hlt, hes, if_false]
      refine selectInv_keep hpre hpost hhe ⟨by simp [← List.append_assoc, hsm], fun x hx => ?_⟩
      simp only [← List.append_assoc, List.mem_append, List.mem_singleton] at hx
      rcases hx with hx | rfl
      · exact hsl x (List.mem_append.mpr hx)
      · exact le_of_not_lt hes

theorem selectInv_foldl {xs : List LeafEntry} {st : Option LeafEntry × Option LeafEntry}
    (hinv : SelectInv xs st) : ∀ ys, SelectInv (xs ++ ys) (ys.foldl selectStep st)
  | [] => by simpa using hinv
  | y :: ys => by
    simpa using selectInv_foldl (selectInv_step hinv y) ys

theorem selectInv_scan (lv : LeafVariants) : SelectInv lv (lv.foldl selectStep (none, none)) := by
  simpa using @selectInv_foldl [] (none, none) rfl lv

theorem scan_some {lv : LeafVariants} (hne : lv ≠ []) :
    ∃ h s, lv.foldl selectStep (none, none) = (some h, s) ∧ SelectInv lv (some h, s) := by
  have hinv := selectInv_scan lv
  rcases hscan : lv.foldl selectStep (none, none) with ⟨_ | h, s⟩
  · rw [hscan] at hinv
    rcases s with _ | _
    · exact absurd hinv hne
    · exact hinv.elim
  · exact ⟨h, s, rfl, hscan ▸ hinv⟩

theorem getHighestPrecedence_spec {lv : LeafVariants} {b : Bool} {l : LeafEntry}
    (h : lv.getHighestPrecedence b = some l) : l ∈ lv ∧ lv.shouldDelete = false := by
  unfold getHighestPrecedence at h
  split at h
  · cases h
  rename_i hne
  split at h
  · cases h
  rename_i hsd
  refine ⟨?_, by simpa using hsd⟩
  obtain ⟨hi, s, hscan, pre, post, rfl, hpre, -, hs⟩ := scan_some (by simpa using hne)
  rw [hscan] at h
  have hhi : hi ∈ pre ++ hi :: post := by simp
  rcases s with _ | s
  · cases b <;> simp only at h <;> split_ifs at h <;> cases h <;> exact hhi
  · have hs' := List.mem_of_mem_erase ((erase_of_lt hpre).symm ▸ hs.1)
    cases b <;> simp only at h <;> split_ifs at h <;> cases h <;> assumption

theorem shouldDelete_eq_false_of_live {lv : LeafVariants} {l : LeafEntry} (hl : l ∈ lv)
    (hdel : l.delete = false) (hown : l.owner ≠ runningIntentName) : lv.shouldDelete = false := by
  cases lv with
  | nil => cases hl
  | cons a rest =>
    have : ¬ (a :: rest).all (fun l => l.delete || l.owner == runningIntentName) := by
      simp only [List.all_eq_true, not_forall]
      exact ⟨l, hl, by simp [hdel, hown]⟩
    simp only [shouldDelete, Bool.and_eq_false_iff]
    exact .inr (by simpa using this)

/-- `h` is a variant of least priority. -/
def IsLeast (lv : LeafVariants) (h : LeafEntry) : Prop := h ∈ lv ∧ ∀ e ∈ lv, h.priority ≤ e.priority

theorem IsLeast.unique {lv : LeafVariants} {a b : LeafEntry}
    (hnd : (lv.map LeafEntry.priority).Nodup) (ha : IsLeast lv a) (hb : IsLeast lv b) : a = b :=
  List.inj_on_of_nodup_map hnd ha.1 hb.1 (le_antisymm (ha.2 b hb.1) (hb.2 a ha.1))

/-- The first variant of least priority, in list order. -/
def firstLeast (lv : LeafVariants) : Option LeafEntry :=
  lv.find? fun e => lv.all fun x => e.priority ≤ x.priority

theorem firstLeast_of_lt {pre post : List LeafEntry} {h : LeafEntry}
    (hpre : ∀ e ∈ pre, h.priority < e.priority) (hpost : ∀ e ∈ post, h.priority ≤ e.priority) :
    firstLeast (pre ++ h :: post) = some h := by
  have hnone : pre.find? (fun e => (pre ++ h :: post).all fun x => e.priority ≤ x.priority) = none :=
    List.find?_eq_none.mpr fun e he hall => absurd (List.all_eq_true.mp hall h (by simp))
      (by simpa using hpre e he)
  rw [firstLeast, List.find?_append, hnone, Option.none_or, List.find?_cons_of_pos]
  exact List.all_eq_true.mpr fun x hx => decide_eq_true (le_of_mem_split hpre hpost x hx)

/-- The selection loop of `GetHighestPrecedence` on any non-empty list of variants: `highest` is the
first variant of least priority; `secondHighest` is none for a single variant, and otherwise a
variant of least priority among the others. -/
theorem scan_selects_two_best {lv : LeafVariants} (hne : lv ≠ []) :
    ∃ h s, lv.foldl selectStep (none, none) = (some h, s) ∧ firstLeast lv = some h ∧
      (lv.length = 1 → s = none) ∧ (1 < lv.length → ∃ s', s = some s' ∧ IsLeast (lv.erase h) s') := by
  obtain ⟨h, s, hscan, pre, post, rfl, hpre, hpost, hs⟩ := scan_some hne
  have hlen : (pre ++ h :: post).length = (pre ++ post).length + 1 := by simp; omega
  refine ⟨h, s, hscan, firstLeast_of_lt hpre hpost, fun hl => ?_, fun hl => ?_⟩ <;> rcases s with _ | s
  · rfl
  · exact absurd hl (by simpa [hlen] using List.ne_nil_of_mem hs.1)
  · exact absurd hl (by simp [hlen, show pre ++ post = [] from hs])
  · exact ⟨s, rfl, by rw [erase_of_lt hpre]; exact hs⟩

theorem scan_selects_two_best_sample :
    let lv : LeafVariants := [⟨⟨["a"], [1], 10, "A"⟩, false, false, false⟩,
      ⟨⟨["a"], [2], 5, "B"⟩, false, false, false⟩, ⟨⟨["a"], [3], 5, "C"⟩, false, false, false⟩,
      ⟨⟨["a"], [4], 7, "D"⟩, false, false, false⟩]
    lv ≠ [] ∧ ∃ h s, lv.foldl selectStep (none, none) = (some h, s) ∧ firstLeast lv = some h ∧
      (lv.length = 1 → s = none) ∧ (1 < lv.length → ∃ s', s = some s' ∧ IsLeast (lv.erase h) s') :=
  ⟨by decide, scan_selects_two_best (by decide)⟩

theorem scan_of_isLeast {lv : LeafVariants} {h : LeafEntry}
    (hnd : (lv.map LeafEntry.priority).Nodup) (hh : IsLeast lv h) :
    ∃ s, lv.foldl selectStep (none, none) = (some h, s) ∧
      match s with
      | none => lv.erase h = []
      | some s => IsLeast (lv.erase h) s := by
  obtain ⟨h', s, hscan, pre, post, rfl, hpre, hpost, hs⟩ := scan_some (List.ne_nil_of_mem hh.1)
  obtain rfl := IsLeast.unique hnd ⟨by simp, le_of_mem_split hpre hpost⟩ hh
  refine ⟨s, hscan, ?_⟩
  rw [erase_of_lt hpre]
  rcases s with _ | s <;> exact hs

/-- The owner holding the least priority lowers its own precedence below another owner's:
`MarkOwnerDelete(o)` then the insert of `o`'s new priority. The leaf's effective value moves
from `o`'s to `w`'s, and `GetHighestPrecedence(true)` reports no change. -/
theorem lowered_precedence_reports_no_update :
    let lv : LeafVariants := [⟨⟨["a", "b"], [1], 5, "o"⟩, false, false, false⟩,
      ⟨⟨["a", "b"], [2], 10, "w"⟩, false, false, false⟩]
    let lv' := (lv.markOwnerDelete "o").addCacheUpdate ⟨["a", "b"], [1], 15, "o"⟩ true
    (lv.getHighestPrecedence false).map (·.update) = some ⟨["a", "b"], [1], 5, "o"⟩ ∧
      (lv'.getHighestPrecedence false).map (·.update) = some ⟨["a", "b"], [2], 10, "w"⟩ ∧
      lv'.getHighestPrecedence true = none := by
  refine ⟨rfl, rfl, rfl⟩

theorem getHighestPrecedence_false_least_live {lv : LeafVariants} (hsd : lv.shouldDelete = false)
    (hdel : (lv.filter (·.delete)).length ≤ 1) (hlive : ∃ l ∈ lv, l.delete = false) :
    ∃ l, lv.getHighestPrecedence false = some l ∧ l ∈ lv ∧ l.delete = false ∧
      ∀ e ∈ lv, e.delete = false → l.priority ≤ e.priority := by
  obtain ⟨l, hl, hld⟩ := hlive
  obtain ⟨h, s, hscan, pre, post, rfl, hpre, hpost, hs⟩ := scan_some (List.ne_nil_of_mem hl)
  have hne : (pre ++ h :: post).length ≠ 0 := by simp
  simp only [getHighestPrecedence, hne, hsd, hscan, if_false, Bool.false_eq_true, Bool.not_false,
    if_true]
  cases hhd : h.delete
  · exact ⟨h, by simp, by simp, hhd, fun e he _ => le_of_mem_split hpre hpost e he⟩
  · have hmem : ∀ e ∈ pre ++ h :: post, e.delete = false → e ∈ pre ++ post := fun e he hed =>
      erase_of_lt hpre ▸ (List.mem_erase_of_ne fun he' => by simp [he', hhd] at hed).mpr he
    rcases s with _ | s
    · exact absurd (hmem l hl hld) (by rw [hs]; simp)
    obtain ⟨hsm, hsl⟩ := hs
    have hsd' : s.delete = false := by
      by_contra hc
      have hpos : 0 < ((pre ++ post).filter (·.delete)).length :=
        List.length_pos_of_mem (List.mem_filter.mpr ⟨hsm, by simpa using hc⟩)
      rw [List.filter_append, List.length_append] at hpos
      rw [List.filter_append, List.filter_cons, if_pos hhd, List.length_append, List.length_cons] at hdel
      omega
    exact ⟨s, by simp, List.mem_of_mem_erase ((erase_of_lt hpre).symm ▸ hsm), hsd',
      fun e he hed => hsl e (hmem e he hed)⟩

/-- With at most one variant marked for deletion and one that is not, `GetHighestPrecedence(false)`
returns a variant not marked for deletion, of least priority among those. -/
theorem getHighestPrecedence_false_of_one_deleted {lv : LeafVariants} (hsd : lv.shouldDelete = false)
    (hdel : (lv.filter (·.delete)).length ≤ 1) (hlive : ∃ l ∈ lv, l.delete = false) :
    ∃ l, lv.getHighestPrecedence false = some l ∧ l ∈ lv ∧ l.delete = false ∧
      ∀ e ∈ lv, e.delete = false → l.priority ≤ e.priority :=
  getHighestPrecedence_false_least_live hsd hdel hlive

theorem getHighestPrecedence_false_of_one_deleted_sample :
    let lv : LeafVariants := [⟨⟨["a"], [1], 5, "A"⟩, false, true, false⟩, ⟨⟨["a"], [2], 10, "B"⟩, false, false, false⟩]
    lv.shouldDelete = false ∧ (lv.filter (·.delete)).length ≤ 1 ∧ (∃ l ∈ lv, l.delete = false) ∧
      ∃ l, lv.getHighestPrecedence false = some l ∧ l ∈ lv ∧ l.delete = false ∧
        ∀ e ∈ lv, e.delete = false → l.priority ≤ e.priority :=
  ⟨by decide, by decide, by decide, getHighestPrecedence_false_of_one_deleted (by decide) (by decide) (by decide)⟩

/-- The variants of one entry have distinct owners, and only `o`'s may be marked for deletion. -/
def OnlyOwnerDeleted (o : String) (lv : LeafVariants) : Prop :=
  (lv.map LeafEntry.owner).Nodup ∧ ∀ l ∈ lv, l.delete = true → l.owner = o

theorem onlyOwnerDeleted_nil (o : String) : OnlyOwnerDeleted o [] := ⟨List.nodup_nil, by simp⟩

theorem onlyOwnerDeleted_addCacheUpdate {o : String} {lv : LeafVariants} (h : lv.OnlyOwnerDeleted o)
    (c : Update) (new : Bool) : (lv.addCacheUpdate c new).OnlyOwnerDeleted o := by
  refine ⟨nodup_addCacheUpdate h.1, fun l hl hd => ?_⟩
  by_cases hm : c.owner ∈ lv.map LeafEntry.owner
  · rw [addCacheUpdate_of_mem hm] at hl
    rcases mem_modifyByOwner hl with hl | ⟨e, -, -, rfl⟩
    · exact h.2 l hl hd
    · unfold refreshVariant at hd; split at hd <;> simp at hd
  · rw [addCacheUpdate_of_not_mem hm] at hl
    rcases List.mem_append.mp hl with hl | hl
    · exact h.2 l hl hd
    · simp [List.mem_singleton.mp hl, LeafEntry.newLeafEntry] at hd

theorem onlyOwnerDeleted_markOwnerDelete {o : String} {lv : LeafVariants} (h : lv.OnlyOwnerDeleted o) :
    (lv.markOwnerDelete o).OnlyOwnerDeleted o := by
  refine ⟨map_owner_markOwnerDelete o lv ▸ h.1, fun l hl hd => ?_⟩
  rcases mem_modifyByOwner hl with hl | ⟨e, -, he, rfl⟩
  · exact h.2 l hl hd
  · simpa using he

theorem length_filter_delete_le_one {o : String} {lv : LeafVariants} (h : lv.OnlyOwnerDeleted o) :
    (lv.filter (·.delete)).length ≤ 1 := by
  have hnd : ((lv.filter (·.delete)).map LeafEntry.owner).Nodup := h.1.sublist ((List.filter_sublist _).map _)
  have hrep : (lv.filter (·.delete)).map LeafEntry.owner = List.replicate (lv.filter (·.delete)).length o :=
    List.eq_replicate_iff.2 ⟨by simp, fun x hx => by
      obtain ⟨l, hl, rfl⟩ := List.mem_map.1 hx
      exact h.2 l (List.mem_of_mem_filter hl) (by simpa using (List.mem_filter.1 hl).2)⟩
  rw [hrep] at hnd
  exact List.nodup_replicate.1 hnd

/-- With `A` (5) and `B` (10) marked for deletion above a live `C` (15),
`GetHighestPrecedence(false)` returns the deleted `B` instead of `C`, and
`GetHighestPrecedence(true)` nothing. -/
theorem deleted_second_highest_returned :
    let lv : LeafVariants := [⟨⟨["a"], [1], 5, "A"⟩, false, true, false⟩,
      ⟨⟨["a"], [2], 10, "B"⟩, false, true, false⟩, ⟨⟨["a"], [3], 15, "C"⟩, false, false, false⟩]
    (lv.map LeafEntry.owner).Nodup ∧ lv.shouldDelete = false ∧
      lv.getHighestPrecedence false = some ⟨⟨["a"], [2], 10, "B"⟩, false, true, false⟩ ∧
      lv.getHighestPrecedence true = none := by
  decide

end LeafVariants

end DataServer
