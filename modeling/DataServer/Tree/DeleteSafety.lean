import DataServer.Tree.Paths
import DataServer.Tree.Deletes

/-! What `GetDeletes` returns, and why. Every returned path has one of three reasons: a list
instance whose existing key children should all be deleted, an entry whose own variants should
all be deleted, or the old case of a choice whose active case switched. Deletes spare the active
configuration that stays, except in the situations these reasons allow. -/
namespace DataServer

/-- The container `S` has a choice whose active case switched away from the case `c`. -/
def Entry.SwitchedFrom (S : Entry) (c : String) : Prop :=
  (∃ cs, S.schema = some ⟨some (.container cs)⟩) ∧
    ∃ choice ∈ S.choicesResolvers, choice.2.getOldBestCaseName = c ∧ c ≠ "" ∧
      choice.2.getBestCaseName ≠ "" ∧ c ≠ choice.2.getBestCaseName

/-- The entry reached from `e` by `r` is a list instance (no schema, and its nearest ancestor schema
a container as many levels up as it has keys), every key child of which should be deleted. -/
def Entry.ListInstanceDeleted (anc : List (Option SchemaElem)) (e : Entry) (r : List String) : Prop :=
  ∃ X sch c, e.getAt r = some X ∧ X.schema = none ∧
    getAncestorSchema (e.ancestorsAlong r ++ anc) = .ok (sch, c.keys.length) ∧
    SchemaElem.getContainer (some sch) = some c ∧
    ∀ k ∈ c.keys, ∀ Y, X.childs.lookup k = some Y → Y.shouldDelete = true

/-- Why `GetDeletes` on the entry `e` at `path`, whose ancestors carry `anc`, returns a path. -/
inductive DeleteReason (anc : List (Option SchemaElem)) (e : Entry) (path : List String) :
    List String → Prop
  | listInstance {r : List String} : e.ListInstanceDeleted anc r → DeleteReason anc e path (path ++ r)
  | deletedVariants {r : List String} {X : Entry} {l : LeafEntry} : e.getAt r = some X →
      X.leafVariants.shouldDelete = true → X.leafVariants.head? = some l →
      DeleteReason anc e path l.update.path
  | switchedCase {r : List String} {S : Entry} {c : String} : e.getAt r = some S → S.SwitchedFrom c →
      DeleteReason anc e path (path ++ r ++ [c])

theorem DeleteReason.of_child {anc : List (Option SchemaElem)} {e c : Entry} {k : String}
    {path p : List String} (hk : e.childs.lookup k = some c) :
    DeleteReason (e.schema :: anc) c (path ++ [k]) p → DeleteReason anc e path p
  | .listInstance ⟨X, sch, cs, hX, hs, hg, hc, hkeys⟩ => by
    have h := @DeleteReason.listInstance anc e path (k :: _) ⟨X, sch, cs,
      by simpa [Entry.getAt, hk] using hX, hs, by simpa [Entry.ancestorsAlong, hk] using hg, hc, hkeys⟩
    simpa using h
  | .deletedVariants hX hsd hl => .deletedVariants (r := k :: _) (by simpa [Entry.getAt, hk]) hsd hl
  | .switchedCase hS hsw => by
    have h := @DeleteReason.switchedCase anc e path (k :: _) _ _ (by simpa [Entry.getAt, hk] using hS) hsw
    simpa using h

theorem mem_choiceSwitchDeletes {path p : List String} {resolvers : ChoiceCasesResolvers}
    (h : p ∈ choiceSwitchDeletes path resolvers) :
    ∃ c, p = path ++ [c] ∧ ∃ choice ∈ resolvers, choice.2.getOldBestCaseName = c ∧ c ≠ "" ∧
      choice.2.getBestCaseName ≠ "" ∧ c ≠ choice.2.getBestCaseName := by
  obtain ⟨⟨name, v⟩, hmem, hp⟩ := List.mem_filterMap.1 h
  dsimp only at hp
  by_cases hc : v.getOldBestCaseName ≠ "" ∧ v.getBestCaseName ≠ "" ∧ v.getOldBestCaseName ≠ v.getBestCaseName
  · rw [if_pos hc] at hp
    cases hp
    exact ⟨_, rfl, (name, v), hmem, rfl, hc⟩
  · rw [if_neg hc] at hp
    cases hp

theorem switchedCaseDeletes_reason {n : String} {childs : Childs} {lv : LeafVariants}
    {schema : Option SchemaElem} {resolvers : ChoiceCasesResolvers} {path : List String}
    {anc : List (Option SchemaElem)} {deletes : List (List String)} :
    ∀ p ∈ switchedCaseDeletes path schema resolvers deletes,
      p ∈ deletes ∨ DeleteReason anc (.mk n childs lv schema resolvers) path p := by
  intro p hp
  rcases schema with _ | ⟨_ | ⟨cs⟩ | _ | _⟩ <;> try exact .inl hp
  rcases List.mem_append.1 hp with hp | hp
  · exact .inl hp
  · obtain ⟨c, rfl, hc⟩ := mem_choiceSwitchDeletes hp
    have h := @DeleteReason.switchedCase anc (.mk n childs lv _ resolvers) path [] _ c rfl ⟨⟨cs, rfl⟩, hc⟩
    exact .inr (by simpa using h)

theorem regularDeletes_reason {n : String} {childs : Childs} {lv : LeafVariants}
    {schema : Option SchemaElem} {resolvers : ChoiceCasesResolvers} {path : List String}
    {anc : List (Option SchemaElem)} {deletes ds : List (List String)}
    {childDeletes : List (List String) → Except Fault (List (List String))}
    (hch : ∀ d ds', childDeletes d = .ok ds' → ∀ p ∈ ds', p ∈ d ∨
      ∃ k c, childs.lookup k = some c ∧ DeleteReason (schema :: anc) c (path ++ [k]) p)
    (h : regularDeletes path lv schema resolvers deletes childDeletes = .ok ds) :
    ∀ p ∈ ds, p ∈ deletes ∨ DeleteReason anc (.mk n childs lv schema resolvers) path p := by
  have h₁ := @switchedCaseDeletes_reason n childs lv schema resolvers path anc deletes
  have hrec : childDeletes (switchedCaseDeletes path schema resolvers deletes) = .ok ds →
      ∀ p ∈ ds, p ∈ deletes ∨ DeleteReason anc (.mk n childs lv schema resolvers) path p := fun h p hp => by
    rcases hch _ ds h p hp with hp | ⟨k, c, hk, hr⟩
    · exact h₁ p hp
    · exact .inr (@DeleteReason.of_child anc (.mk n childs lv schema resolvers) c k path p hk hr)
  simp only [regularDeletes] at h
  cases lv with
  | nil => exact hrec h
  | cons l t =>
    cases hsd : LeafVariants.shouldDelete (l :: t) with
    | false => simp only [hsd] at h; exact hrec h
    | true =>
      simp only [hsd, pure, Except.pure, Except.ok.injEq] at h
      subst h
      intro p hp
      rcases List.mem_append.1 hp with hp | hp
      · exact h₁ p hp
      · rw [List.mem_singleton.1 hp]
        exact .inr (.deletedVariants (r := []) rfl hsd rfl)

theorem isDeleteKeyAttributesInLevelDown_cases (s : Entry) (path : List String) (keys : List String)
    (result : List (List String)) :
    s.isDeleteKeyAttributesInLevelDown path keys result = result ∨
      (s.isDeleteKeyAttributesInLevelDown path keys result = result ++ [path] ∧
        ∀ k ∈ keys, ∀ Y, s.childs.lookup k = some Y → Y.shouldDelete = true) := by
  unfold Entry.isDeleteKeyAttributesInLevelDown
  dsimp only
  split
  · rename_i hall
    refine .inr ⟨rfl, fun k hk Y hY => ?_⟩
    simpa [hY] using List.all_eq_true.1 hall k hk
  · exact .inl rfl

mutual
theorem Entry.getDeletes_reason : ∀ {path : List String} {anc : List (Option SchemaElem)}
    {deletes ds : List (List String)} (e : Entry), e.WellFormed path →
    e.getDeletes path anc deletes = .ok ds → ∀ p ∈ ds, p ∈ deletes ∨ DeleteReason anc e path p
  | path, anc, deletes, ds, .mk n childs lv schema resolvers, hw, h => by
    have hch : ∀ s d ds', childs.getDeletes path (s :: anc) d = .ok ds' → ∀ p ∈ ds', p ∈ d ∨
        ∃ k c, childs.lookup k = some c ∧ DeleteReason (s :: anc) c (path ++ [k]) p :=
      fun s d ds' h' => Childs.getDeletes_reason childs hw.2.2 h'
    have hreg : regularDeletes path lv schema resolvers deletes (childs.getDeletes path (schema :: anc)) =
        .ok ds → ∀ p ∈ ds, p ∈ deletes ∨ DeleteReason anc (.mk n childs lv schema resolvers) path p :=
      regularDeletes_reason (hch schema)
    simp only [Entry.getDeletes] at h
    cases schema with
    | some _ => exact hreg h
    | none =>
      cases hg : getAncestorSchema anc with
      | error => simp [hg, bind, Except.bind] at h
      | ok sl =>
        obtain ⟨sch, level⟩ := sl
        simp only [hg, bind, Except.bind] at h
        split at h
        · rename_i cs hcs
          split at h
          · rename_i hlevel
            rcases isDeleteKeyAttributesInLevelDown_cases (.mk n childs lv none resolvers) path cs.keys deletes with heq | ⟨heq, hkeys⟩
            · rw [heq, if_pos rfl] at h
              intro p hp
              rcases hch none deletes ds h p hp with hp | ⟨k, c, hk, hr⟩
              · exact .inl hp
              · exact .inr (@DeleteReason.of_child anc (.mk n childs lv none resolvers) c k path p hk hr)
            · rw [heq, if_neg (by simp)] at h
              cases h
              intro p hp
              rcases List.mem_append.1 hp with hp | hp
              · exact .inl hp
              · rw [List.mem_singleton.1 hp]
                have h' := @DeleteReason.listInstance anc (.mk n childs lv none resolvers) path []
                  ⟨_, sch, cs, rfl, rfl, by simpa [Entry.ancestorsAlong, hlevel] using hg, hcs, hkeys⟩
                exact .inr (by simpa using h')
          · exact hreg h
        · exact hreg h
theorem Childs.getDeletes_reason : ∀ {path : List String} {s : Option SchemaElem}
    {anc : List (Option SchemaElem)} {deletes ds : List (List String)} (cs : Childs), cs.WellFormed path →
    cs.getDeletes path (s :: anc) deletes = .ok ds → ∀ p ∈ ds, p ∈ deletes ∨
      ∃ k c, cs.lookup k = some c ∧ DeleteReason (s :: anc) c (path ++ [k]) p
  | _, _, _, _, _, .nil, _, h => by
    cases h
    exact fun p hp => .inl hp
  | path, s, anc, deletes, ds, .cons k c rest, ⟨hn, hc, hk, hr⟩, h => by
    simp only [Childs.getDeletes, bind, Except.bind] at h
    cases h₁ : c.getDeletes (path ++ [c.pathElemName]) (s :: anc) deletes with
    | error => simp [h₁] at h
    | ok ds₁ =>
      simp only [h₁] at h
      intro p hp
      rcases Childs.getDeletes_reason rest hr h p hp with hp | ⟨k', c', hk', hr'⟩
      · rcases Entry.getDeletes_reason c (hn ▸ hc) h₁ p hp with hp | hr''
        · exact .inl hp
        · exact .inr ⟨k, c, by simp [Childs.lookup], hn ▸ hr''⟩
      · have hne : k ≠ k' := by
          rintro rfl
          exact hk (by_contra fun hn => absurd hk' (by simp [Childs.lookup_eq_none_iff.2 hn]))
        exact .inr ⟨k', c', by simp [Childs.lookup, hne, hk'], hr'⟩
end

/-- The entry at `p` holds variants that should all be deleted, and children. -/
def Entry.DeletedWithChildren (t : Entry) (p : List String) : Prop :=
  ∃ X, t.getAt p = some X ∧ X.leafVariants.shouldDelete = true ∧ X.childs ≠ .nil

/-- `p` is a container's path followed by the old case of one of its switched choices, and it is
also the path of an active child. -/
def Entry.SwitchedCaseActive (t : Entry) (p : List String) : Prop :=
  ∃ sp c S, p = sp ++ [c] ∧ t.getAt sp = some S ∧ S.SwitchedFrom c ∧ (t.activeAt p).isSome

/-- The situations in which a delete may lie on the way to configuration that stays: a list instance
whose key children should all be deleted (or are missing), variants that should all be deleted
above children, or a switched case named like an active child. -/
def Entry.DeleteException (t : Entry) (p : List String) : Prop :=
  t.ListInstanceDeleted [] p ∨ t.DeletedWithChildren p ∨ t.SwitchedCaseActive p

/-- No delete of `ds` equals or is a proper prefix of the path of an active entry holding a live
variant, or equals the path of an update of `GetHighestPrecedence(true)`, outside the
exceptions. -/
def Entry.DeletesSpareLiveConfig (t : Entry) (ds : List (List String)) : Prop :=
  (∀ p ∈ ds, ∀ q E, t.activeAt q = some E →
      (∃ l ∈ E.leafVariants, l.delete = false ∧ l.owner ≠ runningIntentName) → p <+: q →
      t.DeleteException p) ∧
    ∀ p ∈ ds, ∀ u ∈ rootGetHighestPrecedence t true, u.path = p → t.DeleteException p

theorem DeleteReason.spares {t : Entry} (hw : t.WellFormed []) {p : List String}
    (hr : DeleteReason [] t [] p) {q : List String} {E : Entry} (hE : t.activeAt q = some E)
    (hsd : E.leafVariants.shouldDelete = false) (hpq : p <+: q) : t.DeleteException p := by
  cases hr with
  | listInstance h => exact .inl (by simpa using h)
  | @deletedVariants r X l hX hsd' hl =>
    have hlp : l.update.path = r := by
      simpa using (Entry.wellFormed_iff.mp (Entry.wellFormed_getAt hw hX)).1 l (List.mem_of_mem_head? hl)
    rw [hlp] at hpq ⊢
    obtain ⟨rest, rfl⟩ := hpq
    have hq := Entry.getAt_of_activeAt hE
    rw [Entry.getAt_append, hX, Option.some_bind] at hq
    rcases rest with _ | ⟨k, rest⟩
    · cases hq
      rw [hsd] at hsd'
      cases hsd'
    · exact .inr (.inl ⟨X, hX, hsd', Entry.childs_ne_nil_of_getAt hq⟩)
  | @switchedCase r S c hS hsw =>
    obtain ⟨rest, rfl⟩ := hpq
    rw [Entry.activeAt_append] at hE
    refine .inr (.inr ⟨r, c, S, by simp, by simpa using hS, hsw, ?_⟩)
    cases h : t.activeAt ([] ++ r ++ [c]) <;> simp_all

/-- Deletes spare the live configuration of every reachable tree, outside the exceptions. -/
theorem getDeletes_spares_live_config {tc : TreeContext} {t : Entry} (ht : Reachable tc t)
    {ds : List (List String)} (hds : rootGetDeletes (rootFinishInsertionPhase tc t) = .ok ds) :
    (rootFinishInsertionPhase tc t).DeletesSpareLiveConfig ds := by
  have hw := wellFormed_rootFinishInsertionPhase tc ht.wellFormed
  have hreason : ∀ p ∈ ds, DeleteReason [] (rootFinishInsertionPhase tc t) [] p := fun p hp =>
    (Entry.getDeletes_reason _ hw hds p hp).resolve_left (List.not_mem_nil p)
  refine ⟨fun p hp q E hE ⟨l, hl, hdel, hown⟩ hpq => (hreason p hp).spares hw hE
    (LeafVariants.shouldDelete_eq_false_of_live hl hdel hown) hpq, fun p hp u hu hup => ?_⟩
  rcases Entry.mem_getHighestPrecedence _ hw hu with h | ⟨r, E, l, hE, hl, rfl, hpath⟩
  · cases h
  · rw [List.nil_append] at hpath
    subst hup
    exact (hreason _ hp).spares hw hE (LeafVariants.getHighestPrecedence_spec hl).2 (hpath ▸ List.prefix_refl r)

/-- The schema of one keyed list: the root container, the list `interface` keyed by `name`, and
string leaves below it. -/
def interfaceSchema : List String → Except String (Option SchemaElem)
  | [] => .ok (some ⟨some (.container ⟨[], [], false, []⟩)⟩)
  | ["interface"] => .ok (some ⟨some (.container ⟨["name"], [], false, []⟩)⟩)
  | _ => .ok (some ⟨some (.field ⟨"string", ""⟩)⟩)

def interfaceContext : TreeContext := ⟨interfaceSchema, "A", [], .schema⟩

def interfaceRoot : Entry := .mk "" .nil [] (some ⟨some (.container ⟨[], [], false, []⟩)⟩) []

/-- Owner `A` sets the `mtu` of the list instance `eth0` and no `name` key leaf. -/
def missingKeyTree : Entry :=
  buildTree interfaceContext interfaceRoot [.addCacheUpdate ⟨["interface", "eth0", "mtu"], [1], 10, "A"⟩ true]

/-- The schema of a presence container `p` below the root, and string leaves. -/
def presenceSchema : List String → Except String (Option SchemaElem)
  | [] => .ok (some ⟨some (.container ⟨[], [], false, []⟩)⟩)
  | ["p"] => .ok (some ⟨some (.container ⟨[], [], true, []⟩)⟩)
  | _ => .ok (some ⟨some (.field ⟨"string", ""⟩)⟩)

def presenceContext : TreeContext := ⟨presenceSchema, "A", [], .schema⟩

/-- Owner `A` sets the presence container `p`, owner `B` its leaf `q`, and `A`'s variants are then
marked for deletion. -/
def presenceTree : Entry :=
  buildTree presenceContext interfaceRoot
    [.addCacheUpdate ⟨["p"], [1], 10, "A"⟩ false, .addCacheUpdate ⟨["p", "q"], [2], 10, "B"⟩ false,
     .markOwnerDelete "A"]

theorem getDeletes_spares_live_config_sample :
    (Reachable interfaceContext missingKeyTree ∧
      rootGetDeletes (rootFinishInsertionPhase interfaceContext missingKeyTree) = .ok [["interface", "eth0"]] ∧
      (∃ E, (rootFinishInsertionPhase interfaceContext missingKeyTree).activeAt ["interface", "eth0", "mtu"] = some E ∧
        ∃ l ∈ E.leafVariants, l.delete = false ∧ l.owner ≠ runningIntentName) ∧
      (rootFinishInsertionPhase interfaceContext missingKeyTree).DeletesSpareLiveConfig [["interface", "eth0"]]) ∧
    (Reachable presenceContext presenceTree ∧
      rootGetDeletes (rootFinishInsertionPhase presenceContext presenceTree) = .ok [["p"]] ∧
      (∃ E, (rootFinishInsertionPhase presenceContext presenceTree).activeAt ["p", "q"] = some E ∧
        ∃ l ∈ E.leafVariants, l.delete = false ∧ l.owner ≠ runningIntentName) ∧
      (rootFinishInsertionPhase presenceContext presenceTree).DeletesSpareLiveConfig [["p"]]) :=
  have hk : Reachable interfaceContext missingKeyTree := ⟨_, _, rfl, rfl⟩
  have hp : Reachable presenceContext presenceTree := ⟨_, _, rfl, rfl⟩
  ⟨⟨hk, rfl, ⟨_, rfl, by decide⟩, getDeletes_spares_live_config hk rfl⟩,
    ⟨hp, by decide, ⟨_, rfl, by decide⟩, getDeletes_spares_live_config hp (by decide)⟩⟩

/-- Owner `B` sets the key leaf `name` of `eth0`, owner `A` a value on the list instance itself, and
`A`'s variants are then marked for deletion. -/
def keyedValueTree : Entry :=
  buildTree interfaceContext interfaceRoot
    [.addCacheUpdate ⟨["interface", "eth0", "name"], [1], 10, "B"⟩ false,
     .addCacheUpdate ⟨["interface", "eth0"], [2], 20, "A"⟩ false, .markOwnerDelete "A"]

/-- The list instance's own variants should all be deleted, yet `GetDeletes` returns nothing: the
list-instance branch returns after the key check without looking at them. -/
theorem list_instance_variants_never_deleted :
    Reachable interfaceContext keyedValueTree ∧
      (∃ X, (rootFinishInsertionPhase interfaceContext keyedValueTree).getAt ["interface", "eth0"] = some X ∧
        X.leafVariants.shouldDelete = true) ∧
      rootGetDeletes (rootFinishInsertionPhase interfaceContext keyedValueTree) = .ok [] :=
  ⟨⟨_, _, rfl, rfl⟩, ⟨_, rfl, rfl⟩, rfl⟩

/-- A container whose choice `ch` has a case `foo` holding `x` and a case `bar` holding an element
named `foo`. -/
def caseNameSchema : SchemaElem :=
  ⟨some (.container ⟨[], [], false, [("ch", [("foo", ["x"]), ("bar", ["foo"])])]⟩)⟩

/-- The device of `caseNameSchema` at the root and string leaves below it; the store holds `x` of
`owner1`, and the intent applied is `owner2`'s. -/
def caseNameContext : TreeContext where
  getSchema p := .ok (some (if p = [] then caseNameSchema else ⟨some (.field ⟨"string", ""⟩)⟩))
  actualOwner := "owner2"
  storeIndex := [("x", [⟨["x"], [1], 10, "owner1"⟩])]
  caseOrder := .schema

def caseNameTree : Entry :=
  buildTree caseNameContext
    (.mk "" .nil [] (some caseNameSchema) (initChoiceCasesResolvers .schema [] (some caseNameSchema)))
    [.addCacheUpdate ⟨["foo"], [2], 5, "owner2"⟩ true]

/-- The active case switches from `foo` to `bar`, and `GetDeletes` emits the old case's name as a
path, which is the path of `owner2`'s live value `foo`: the device is sent both a delete and an
update of `foo`. -/
theorem case_name_deleted_and_updated :
    Reachable caseNameContext caseNameTree ∧
      rootGetDeletes (rootFinishInsertionPhase caseNameContext caseNameTree) = .ok [["foo"]] ∧
      (∃ E, (rootFinishInsertionPhase caseNameContext caseNameTree).activeAt ["foo"] = some E ∧
        ∃ l ∈ E.leafVariants, l.delete = false ∧ l.owner ≠ runningIntentName) ∧
      rootGetHighestPrecedence (rootFinishInsertionPhase caseNameContext caseNameTree) true =
        [⟨["foo"], [2], 5, "owner2"⟩] :=
  ⟨⟨_, _, rfl, rfl⟩, by decide, ⟨_, rfl, by decide⟩, by decide⟩

end DataServer
