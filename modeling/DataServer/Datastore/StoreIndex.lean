import DataServer.Cache.Update
import DataServer.Datastore.RawIntent
import Mathlib.Data.List.Sort

/-! The two indexes the intent transaction builds from reads of the intended store, keyed by a path
joined into one string: a key holds exactly the updates whose joined path is that key, so two
paths that join alike share one key. -/
namespace DataServer

namespace Go

/-- `strings.Join(elems, sep)` with a one-character separator. -/
def joinStrings (elems : List String) (sep : Char) : String := ⟨join (elems.map String.toList) sep⟩

variable {κ β : Type} [DecidableEq κ]

/-- `m[key] = v` on a Go map, modelled as the list of its keys and values in the order the keys were
first set; `m.lookup key` reads it, `none` standing for a missing key. -/
def mapSet : List (κ × β) → κ → β → List (κ × β)
  | [], key, v => [(key, v)]
  | (k, v') :: rest, key, v => if k = key then (k, v) :: rest else (k, v') :: mapSet rest key v

/-- `if _, ok := m[key]; !ok { m[key] = zero }`. -/
def initKey (m : List (κ × β)) (key : κ) (zero : β) : List (κ × β) :=
  if (m.lookup key).isNone then mapSet m key zero else m

/-- `m[key] = append(m[key], v)` on a map of slices, after the key is set to an empty slice when
missing. -/
def appendAt {α : Type} (m : List (κ × List α)) (key : κ) (v : α) : List (κ × List α) :=
  let m := initKey m key []
  mapSet m key ((m.lookup key).getD [] ++ [v])

theorem lookup_cons_ite (rest : List (κ × β)) (k k' : κ) (v : β) :
    ((k', v) :: rest).lookup k = if k = k' then some v else rest.lookup k := by
  rw [List.lookup_cons]
  by_cases h : k = k'
  · simp [h]
  · simp [h, beq_false_of_ne h]

theorem lookup_eq_none_of_not_mem {m : List (κ × β)} {k : κ} (h : k ∉ m.map Prod.fst) : m.lookup k = none :=
  List.lookup_eq_none_iff.mpr fun x hx => bne_iff_ne.mpr fun hk => h (List.mem_map.mpr ⟨x, hx, hk.symm⟩)

@[simp] theorem lookup_mapSet (m : List (κ × β)) (key k : κ) (v : β) :
    (mapSet m key v).lookup k = if k = key then some v else m.lookup k := by
  induction m with
  | nil => simp [mapSet, lookup_cons_ite]
  | cons kv rest ih =>
    obtain ⟨k', v'⟩ := kv
    by_cases hk : k' = key
    · subst hk
      by_cases h : k = k' <;> simp [mapSet, lookup_cons_ite, h]
    · by_cases h : k = k'
      · subst h
        simp [mapSet, lookup_cons_ite, hk]
      · simp [mapSet, lookup_cons_ite, hk, h, ih]

theorem mem_keys_mapSet (m : List (κ × β)) (key k : κ) (v : β) :
    k ∈ (mapSet m key v).map Prod.fst ↔ k = key ∨ k ∈ m.map Prod.fst := by
  induction m with
  | nil => simp [mapSet]
  | cons kv rest ih =>
    obtain ⟨k', v'⟩ := kv
    by_cases hk : k' = key
    · subst hk; simp [mapSet]
    · simp only [mapSet, hk, if_false, List.map_cons, List.mem_cons, ih]
      tauto

theorem nodup_keys_mapSet {m : List (κ × β)} (h : (m.map Prod.fst).Nodup) (key : κ) (v : β) :
    ((mapSet m key v).map Prod.fst).Nodup := by
  induction m with
  | nil => simp [mapSet]
  | cons kv rest ih =>
    obtain ⟨k', v'⟩ := kv
    rw [List.map_cons, List.nodup_cons] at h
    by_cases hk : k' = key
    · simpa only [mapSet, hk, if_true, List.map_cons, List.nodup_cons] using hk ▸ h
    · simp only [mapSet, hk, if_false, List.map_cons, List.nodup_cons, mem_keys_mapSet, not_or]
      exact ⟨⟨not_false, h.1⟩, ih h.2⟩

@[simp] theorem getD_lookup_initKey (m : List (κ × β)) (key k : κ) (zero : β) :
    ((initKey m key zero).lookup k).getD zero = (m.lookup k).getD zero := by
  unfold initKey
  split
  · rename_i h
    by_cases hk : k = key
    · subst hk; simp [Option.isNone_iff_eq_none.mp h]
    · simp [hk]
  · rfl

theorem mem_keys_initKey (m : List (κ × β)) (key k : κ) (zero : β) :
    k ∈ (initKey m key zero).map Prod.fst ↔ k ∈ m.map Prod.fst ∨ (k = key ∧ m.lookup key = none) := by
  unfold initKey
  split
  · rename_i h
    rw [mem_keys_mapSet, Option.isNone_iff_eq_none.mp h]
    tauto
  · rename_i h
    simp only [Option.isNone_iff_eq_none] at h
    simp [h]

theorem nodup_keys_initKey {m : List (κ × β)} (h : (m.map Prod.fst).Nodup) (key : κ) (zero : β) :
    ((initKey m key zero).map Prod.fst).Nodup := by
  unfold initKey
  split
  · exact nodup_keys_mapSet h key zero
  · exact h

theorem getD_lookup_appendAt {α : Type} (m : List (κ × List α)) (key k : κ) (v : α) :
    ((appendAt m key v).lookup k).getD [] = if k = key then (m.lookup k).getD [] ++ [v] else (m.lookup k).getD [] := by
  by_cases hk : k = key
  · subst hk; simp [appendAt]
  · simp only [appendAt, lookup_mapSet, hk, if_false, getD_lookup_initKey]

theorem mem_keys_appendAt {α : Type} (m : List (κ × List α)) (key k : κ) (v : α) :
    k ∈ (appendAt m key v).map Prod.fst ↔ k = key ∨ k ∈ m.map Prod.fst := by
  rw [appendAt, mem_keys_mapSet, mem_keys_initKey]
  tauto

theorem nodup_keys_appendAt {α : Type} {m : List (κ × List α)} (h : (m.map Prod.fst).Nodup) (key : κ) (v : α) :
    ((appendAt m key v).map Prod.fst).Nodup :=
  nodup_keys_mapSet (nodup_keys_initKey h key []) key _

theorem joinStrings_inj {p q : List String} {sep : Char} (hp : p ≠ []) (hq : q ≠ [])
    (hsp : ∀ s ∈ p, sep ∉ s.toList) (hsq : ∀ s ∈ q, sep ∉ s.toList) (h : joinStrings p sep = joinStrings q sep) :
    p = q := by
  have hsplit : ∀ r : List String, r ≠ [] → (∀ s ∈ r, sep ∉ s.toList) →
      (join (r.map String.toList) sep).splitOn sep = r.map String.toList := fun r hr hs =>
    List.splitOn_intercalate _ sep (by simpa using hs) (by simpa using hr)
  have hmap : p.map String.toList = q.map String.toList := by
    rw [← hsplit p hp hsp, ← hsplit q hq hsq, show join (p.map String.toList) sep = join (q.map String.toList) sep
      from congrArg String.toList h]
  exact List.map_injective_iff.mpr (fun a b hab => by cases a; cases b; cases hab; rfl) hmap

theorem joinStrings_eq_iff {p q : List String} {sep : Char} (hp : p ≠ []) (hq : q ≠ [])
    (hsp : ∀ s ∈ p, sep ∉ s.toList) (hsq : ∀ s ∈ q, sep ∉ s.toList) :
    joinStrings p sep = joinStrings q sep ↔ p = q :=
  ⟨joinStrings_inj hp hq hsp hsq, fun h => h ▸ rfl⟩

end Go

/-- `tree.KeysIndexSep`. -/
def keysIndexSep : Char := '_'

/-- One iteration of the loop of `readIntendedStoreKeysMeta`: the entry is appended to the slice
under its path joined by `KeysIndexSep`. -/
def keysMetaStep (result : List (String × List Update)) (e : Update) : List (String × List Update) :=
  Go.appendAt result (Go.joinStrings e.path keysIndexSep) e

/-- How the loop of `readIntendedStoreKeysMeta` ends: the entry channel is closed, or the context
ends first, with its error. -/
inductive KeysStreamEnd where
  | closed
  | ctxDone (err : String)
deriving DecidableEq, Repr

/-- `readIntendedStoreKeysMeta` on the answer of `cacheClient.GetKeys`: its error, or the entries
its channel delivers and how the loop ends; when the context ends first, the entries are dropped
and its error returned. -/
def readIntendedStoreKeysMeta (getKeys : Except String (List Update × KeysStreamEnd)) :
    Except Fault (List (String × List Update)) := do
  let (entries, stop) ← getKeys.mapError Fault.error
  match stop with
  | .closed => pure (entries.foldl keysMetaStep [])
  | .ctxDone err => .error (.error err)

theorem getD_lookup_foldl_keysMetaStep (key : String) :
    ∀ (entries : List Update) (acc : List (String × List Update)),
      ((entries.foldl keysMetaStep acc).lookup key).getD [] =
        (acc.lookup key).getD [] ++ entries.filter fun e => Go.joinStrings e.path keysIndexSep = key
  | [], acc => by simp
  | e :: entries, acc => by
    rw [List.foldl_cons, getD_lookup_foldl_keysMetaStep key entries, keysMetaStep, Go.getD_lookup_appendAt,
      List.filter_cons]
    by_cases h : Go.joinStrings e.path keysIndexSep = key
    · simp [h]
    · simp [h, Ne.symm h]

theorem readIntendedStoreKeysMeta_lookup (entries : List Update) (key : String) :
    ∃ index, readIntendedStoreKeysMeta (.ok (entries, .closed)) = .ok index ∧
      (index.lookup key).getD [] = entries.filter fun e => Go.joinStrings e.path keysIndexSep = key :=
  ⟨_, rfl, by simpa using getD_lookup_foldl_keysMetaStep key entries []⟩

/-- So the index is lossless on streams that close before the context ends, of paths that are not
empty and whose segments do not hold the separator: under such a path joined it holds exactly
the entries at that path. -/
theorem readIntendedStoreKeysMeta_lookup_path {entries : List Update} (hne : ∀ e ∈ entries, e.path ≠ [])
    (hsep : ∀ e ∈ entries, ∀ s ∈ e.path, keysIndexSep ∉ s.toList) {p : List String} (hp : p ≠ [])
    (hps : ∀ s ∈ p, keysIndexSep ∉ s.toList) :
    ∃ index, readIntendedStoreKeysMeta (.ok (entries, .closed)) = .ok index ∧
      (index.lookup (Go.joinStrings p keysIndexSep)).getD [] = entries.filter fun e => e.path = p := by
  obtain ⟨index, hi, hl⟩ := readIntendedStoreKeysMeta_lookup entries (Go.joinStrings p keysIndexSep)
  refine ⟨index, hi, hl.trans (List.filter_congr fun e he => ?_)⟩
  simp only [Go.joinStrings_eq_iff (hne e he) hp (hsep e he) hps]

theorem readIntendedStoreKeysMeta_lookup_path_sample :
    let entries : List Update := [⟨["a", "b"], [1], 10, "owner1"⟩, ⟨["a", "c"], [2], 10, "owner1"⟩]
    (∀ e ∈ entries, e.path ≠ []) ∧ (∀ e ∈ entries, ∀ s ∈ e.path, keysIndexSep ∉ s.toList) ∧
      ["a", "b"] ≠ [] ∧ (∀ s ∈ ["a", "b"], keysIndexSep ∉ s.toList) ∧
      ∃ index, readIntendedStoreKeysMeta (.ok (entries, .closed)) = .ok index ∧
        (index.lookup (Go.joinStrings ["a", "b"] keysIndexSep)).getD [] = entries.filter fun e => e.path = ["a", "b"] :=
  ⟨by decide, by decide, by decide, by decide,
    readIntendedStoreKeysMeta_lookup_path (by decide) (by decide) (by decide) (by decide)⟩

/-- A stream with an entry at `a_b` and one at `a/b`, closed before the context ends: both paths
join to `a_b`, and the index holds both under that key. -/
theorem keysIndex_merges_paths :
    Go.joinStrings ["a_b"] keysIndexSep = "a_b" ∧ Go.joinStrings ["a", "b"] keysIndexSep = "a_b" ∧
      readIntendedStoreKeysMeta (.ok ([⟨["a_b"], [1], 10, "owner1"⟩, ⟨["a", "b"], [2], 10, "owner1"⟩], .closed)) =
        .ok [("a_b", [⟨["a_b"], [1], 10, "owner1"⟩, ⟨["a", "b"], [2], 10, "owner1"⟩])] := by
  decide

/-- One iteration of the first loop of `readCurrentUpdatesHighestPriorities`, on `(rs, groupings)`:
with `sp` the entry's path joined by `,`, `rs[sp]` is set to an empty list of groups and
`groupings[sp]` to an empty map when missing, and the entry is appended to `groupings[sp][p]`,
`p` its priority, after that is set to an empty slice when missing. -/
def groupingStep :
    List (String × List (List Update)) × List (String × List (Int32 × List Update)) → Update →
      List (String × List (List Update)) × List (String × List (Int32 × List Update))
  | (rs, groupings), cce =>
    let sp := Go.joinStrings cce.path ','
    let groupings := Go.initKey groupings sp []
    (Go.initKey rs sp [], Go.mapSet groupings sp (Go.appendAt ((groupings.lookup sp).getD []) cce.priority cce))

/-- One iteration of the second loop, for `sp` and its map `groupping`: its priorities sorted in
increasing order by `sort.Slice` (on distinct keys every sort gives the same list), and
`groupping[pr]` appended to `rs[sp]` for each. -/
def appendGroups (rs : List (String × List (List Update))) (sp : String)
    (groupping : List (Int32 × List Update)) : List (String × List (List Update)) :=
  let priorities := (groupping.map Prod.fst).insertionSort (· ≤ ·)
  priorities.foldl (fun rs pr => Go.mapSet rs sp ((rs.lookup sp).getD [] ++ [(groupping.lookup pr).getD []])) rs

/-- `readCurrentUpdatesHighestPriorities` on the entries `cacheClient.Read` returned; its second
loop runs in the map's order, each iteration writing only its own key. -/
def readCurrentUpdatesHighestPriorities (currentCacheEntries : List Update) : List (String × List (List Update)) :=
  if currentCacheEntries.length = 0 then [] else
  let st := currentCacheEntries.foldl groupingStep ([], [])
  st.2.foldl (fun rs g => appendGroups rs g.1 g.2) st.1

section Groupings

variable (sp : String)

theorem getD_lookup_groupingStep_fst (rs : List (String × List (List Update)))
    (groupings : List (String × List (Int32 × List Update))) (cce : Update) :
    (((groupingStep (rs, groupings) cce).1.lookup sp).getD []) = (rs.lookup sp).getD [] :=
  Go.getD_lookup_initKey ..

theorem getD_lookup_groupingStep_snd (rs : List (String × List (List Update)))
    (groupings : List (String × List (Int32 × List Update))) (cce : Update) :
    ((groupingStep (rs, groupings) cce).2.lookup sp).getD [] =
      if sp = Go.joinStrings cce.path ',' then Go.appendAt ((groupings.lookup sp).getD []) cce.priority cce
      else (groupings.lookup sp).getD [] := by
  by_cases h : sp = Go.joinStrings cce.path ','
  · subst h; simp [groupingStep]
  · simp only [groupingStep, Go.lookup_mapSet, h, if_false, Go.getD_lookup_initKey]

theorem nodup_keys_groupingStep {st : List (String × List (List Update)) × List (String × List (Int32 × List Update))}
    (h : (st.2.map Prod.fst).Nodup) (cce : Update) : ((groupingStep st cce).2.map Prod.fst).Nodup :=
  Go.nodup_keys_mapSet (Go.nodup_keys_initKey h _ []) _ _

theorem groupings_foldl (pr : Int32) : ∀ (cces : List Update)
    (st : List (String × List (List Update)) × List (String × List (Int32 × List Update))),
    let st' := cces.foldl groupingStep st
    ((st'.1.lookup sp).getD [] = (st.1.lookup sp).getD []) ∧
      ((st.2.map Prod.fst).Nodup → (st'.2.map Prod.fst).Nodup) ∧
      ((((st.2.lookup sp).getD []).map Prod.fst).Nodup → (((st'.2.lookup sp).getD []).map Prod.fst).Nodup) ∧
      (pr ∈ ((st'.2.lookup sp).getD []).map Prod.fst ↔
        pr ∈ ((st.2.lookup sp).getD []).map Prod.fst ∨ ∃ c ∈ cces, Go.joinStrings c.path ',' = sp ∧ c.priority = pr) ∧
      ((((st'.2.lookup sp).getD []).lookup pr).getD [] =
        (((st.2.lookup sp).getD []).lookup pr).getD [] ++
          cces.filter fun c => Go.joinStrings c.path ',' = sp ∧ c.priority = pr)
  | [], st => by simp
  | cce :: cces, (rs, groupings) => by
    obtain ⟨h₁, h₂, h₃, h₄, h₅⟩ := groupings_foldl pr cces (groupingStep (rs, groupings) cce)
    simp only [List.foldl_cons, getD_lookup_groupingStep_fst, getD_lookup_groupingStep_snd] at h₁ h₃ h₄ h₅ ⊢
    refine ⟨h₁, fun h => h₂ (nodup_keys_groupingStep h cce), fun h => h₃ ?_, ?_, ?_⟩
    · split
      · exact Go.nodup_keys_appendAt h _ _
      · exact h
    · rw [h₄]
      split
      · rename_i hsp
        subst hsp
        simp only [Go.mem_keys_appendAt, List.mem_cons, exists_eq_or_imp, true_and]
        rw [or_assoc, or_left_comm, @eq_comm _ pr]
      · rename_i hsp
        simp only [List.mem_cons, exists_eq_or_imp, Ne.symm hsp, false_and, false_or]
    · rw [h₅, List.filter_cons]
      split
      · rename_i hsp
        subst hsp
        by_cases hp : pr = cce.priority
        · simp [Go.getD_lookup_appendAt, hp]
        · simp [Go.getD_lookup_appendAt, hp, Ne.symm hp]
      · rename_i hsp
        simp [Ne.symm hsp]

end Groupings

theorem getD_lookup_foldl_append (sp k : String) (f : Int32 → List Update) :
    ∀ (prs : List Int32) (rs : List (String × List (List Update))),
      ((prs.foldl (fun rs pr => Go.mapSet rs sp ((rs.lookup sp).getD [] ++ [f pr])) rs).lookup k).getD [] =
        if k = sp then (rs.lookup k).getD [] ++ prs.map f else (rs.lookup k).getD []
  | [], rs => by simp
  | pr :: prs, rs => by
    rw [List.foldl_cons, getD_lookup_foldl_append sp k f prs]
    by_cases h : k = sp
    · subst h; simp
    · simp [h]

theorem getD_lookup_foldl_appendGroups (k : String) :
    ∀ (groupings : List (String × List (Int32 × List Update))) (rs : List (String × List (List Update))),
      (groupings.map Prod.fst).Nodup →
        ((groupings.foldl (fun rs g => appendGroups rs g.1 g.2) rs).lookup k).getD [] =
          (rs.lookup k).getD [] ++ ((((groupings.lookup k).getD []).map Prod.fst).insertionSort (· ≤ ·)).map
            fun pr => (((groupings.lookup k).getD []).lookup pr).getD []
  | [], rs, _ => by simp
  | (sp, g) :: groupings, rs, hnd => by
    rw [List.map_cons, List.nodup_cons] at hnd
    rw [List.foldl_cons, getD_lookup_foldl_appendGroups k groupings _ hnd.2, appendGroups,
      getD_lookup_foldl_append, Go.lookup_cons_ite]
    by_cases h : k = sp
    · subst h
      simp [Go.lookup_eq_none_of_not_mem hnd.1]
    · simp [h]

theorem readCurrentUpdatesHighestPriorities_lookup (cces : List Update) (sp : String) :
    ∃ prs : List Int32, prs.Sorted (· < ·) ∧
      (∀ pr, pr ∈ prs ↔ ∃ c ∈ cces, Go.joinStrings c.path ',' = sp ∧ c.priority = pr) ∧
      ((readCurrentUpdatesHighestPriorities cces).lookup sp).getD [] =
        prs.map fun pr => cces.filter fun c => Go.joinStrings c.path ',' = sp ∧ c.priority = pr := by
  unfold readCurrentUpdatesHighestPriorities
  split
  · rename_i h
    obtain rfl := List.length_eq_zero.mp h
    exact ⟨[], List.sorted_nil, by simp, rfl⟩
  · have hst := fun pr => groupings_foldl sp pr cces ([], [])
    simp only [List.lookup_nil, Option.getD_none, List.map_nil, List.nodup_nil, List.not_mem_nil,
      false_or, List.nil_append, true_implies] at hst
    have hnd := (List.perm_insertionSort (· ≤ ·) _).nodup_iff.mpr (hst 0).2.2.1
    refine ⟨_, (List.sorted_insertionSort _ _).lt_of_le hnd,
      fun pr => (List.perm_insertionSort _ _).mem_iff.trans (hst pr).2.2.2.1, ?_⟩
    rw [getD_lookup_foldl_appendGroups sp _ _ (hst 0).2.1, (hst 0).1]
    exact congrArg (List.nil ++ ·) (List.map_congr_left fun pr _ => (hst pr).2.2.2.2)

/-- So on entries whose paths are not empty and whose segments hold no `,`, the groups under a path
joined are by path: the entries at that path, one group for each of their priorities. -/
theorem readCurrentUpdatesHighestPriorities_lookup_path {cces : List Update} (hne : ∀ c ∈ cces, c.path ≠ [])
    (hsep : ∀ c ∈ cces, ∀ s ∈ c.path, ',' ∉ s.toList) {p : List String} (hp : p ≠ [])
    (hps : ∀ s ∈ p, ',' ∉ s.toList) :
    ∃ prs : List Int32, prs.Sorted (· < ·) ∧ (∀ pr, pr ∈ prs ↔ ∃ c ∈ cces, c.path = p ∧ c.priority = pr) ∧
      ((readCurrentUpdatesHighestPriorities cces).lookup (Go.joinStrings p ',')).getD [] =
        prs.map fun pr => cces.filter fun c => c.path = p ∧ c.priority = pr := by
  have hkey : ∀ c ∈ cces, Go.joinStrings c.path ',' = Go.joinStrings p ',' ↔ c.path = p := fun c hc =>
    Go.joinStrings_eq_iff (hne c hc) hp (hsep c hc) hps
  obtain ⟨prs, hs, hm, hl⟩ := readCurrentUpdatesHighestPriorities_lookup cces (Go.joinStrings p ',')
  refine ⟨prs, hs, fun pr => (hm pr).trans ?_,
    hl.trans (List.map_congr_left fun pr _ => List.filter_congr fun c hc => by simp only [hkey c hc])⟩
  exact exists_congr fun c => and_congr_right fun hc => by rw [hkey c hc]

theorem readCurrentUpdatesHighestPriorities_lookup_path_sample :
    let cces : List Update := [⟨["a", "b"], [1], 10, "owner1"⟩, ⟨["a", "b"], [2], 5, "owner2"⟩,
      ⟨["a", "c"], [3], 10, "owner1"⟩]
    (∀ c ∈ cces, c.path ≠ []) ∧ (∀ c ∈ cces, ∀ s ∈ c.path, ',' ∉ s.toList) ∧ ["a", "b"] ≠ [] ∧
      (∀ s ∈ ["a", "b"], ',' ∉ s.toList) ∧
      ∃ prs : List Int32, prs.Sorted (· < ·) ∧ (∀ pr, pr ∈ prs ↔ ∃ c ∈ cces, c.path = ["a", "b"] ∧ c.priority = pr) ∧
        ((readCurrentUpdatesHighestPriorities cces).lookup (Go.joinStrings ["a", "b"] ',')).getD [] =
          prs.map fun pr => cces.filter fun c => c.path = ["a", "b"] ∧ c.priority = pr :=
  ⟨by decide, by decide, by decide, by decide,
    readCurrentUpdatesHighestPriorities_lookup_path (by decide) (by decide) (by decide) (by decide)⟩

/-- Two entries read, at `a,b` and at `a/b`: both paths join to `a,b`, and the one group under that
key holds both. -/
theorem priorityGroups_merge_paths :
    Go.joinStrings ["a,b"] ',' = "a,b" ∧ Go.joinStrings ["a", "b"] ',' = "a,b" ∧
      readCurrentUpdatesHighestPriorities [⟨["a,b"], [1], 10, "owner1"⟩, ⟨["a", "b"], [2], 10, "owner2"⟩] =
        [("a,b", [[⟨["a,b"], [1], 10, "owner1"⟩, ⟨["a", "b"], [2], 10, "owner2"⟩]])] := by
  decide

end DataServer
