import DataServer.Tree.Paths
import DataServer.Tree.Choice

/-! Validation of mandatory children (`ValidateMandatory`). A mandatory child of a container must be
an active child that is not to be deleted, or be in the intended-store index; in a keyed list the
test is made on every instance, as many active levels down as the list has keys. The walk that
looks for containers goes through every child, active or not. -/
namespace DataServer

/-- Modelled from the spec: `TreeContext.PathExists` is not in the sources. A path exists when the
intended-store index holds an update at it or below it. -/
def TreeContext.pathExists (tc : TreeContext) (p : List String) : Bool :=
  (tc.storeIndex.flatMap (·.2)).any fun u => p.isPrefixOf u.path

/-- The error of `ValidateMandatoryWithKeys` on the entry at `path`. -/
def mandatoryChildError (path : List String) (attr : String) : String :=
  Go.stringSlice path ++ ": mandatory child " ++ attr ++ " does not exist"

mutual
/-- `ValidateMandatoryWithKeys(level, attribute)` on the entry at `path`, with `attribute` as
`attr`: at level 0 the test of the attribute, above it the same call one level down on every
active child. -/
def Entry.validateMandatoryWithKeys (tc : TreeContext) (attr : String) :
    Nat → List String → Entry → Except String Unit
  | 0, path, s =>
    let existsInTree := s.filterActiveChoiceCaseChilds.lookup attr
    if !(existsInTree.any fun v => !v.shouldDelete) then
      if !tc.pathExists (path ++ [attr]) then .error (mandatoryChildError path attr)
      else .ok ()
    else .ok ()
  | level + 1, path, s@(.mk _ childs _ _ _) =>
    childs.validateMandatoryWithKeys tc attr level path s.skipElements
/-- The loop over `filterActiveChoiceCaseChilds()`: the children not in the skip set. -/
def Childs.validateMandatoryWithKeys (tc : TreeContext) (attr : String) (level : Nat)
    (path skip : List String) : Childs → Except String Unit
  | .nil => .ok ()
  | .cons k c rest => do
    if k ∉ skip then c.validateMandatoryWithKeys tc attr level (path ++ [c.pathElemName])
    rest.validateMandatoryWithKeys tc attr level path skip
end

mutual
/-- `ValidateMandatory` on the entry at `path`: a container tests each of its mandatory children, as
many levels down as it has keys; then the call recurses into every child. -/
def Entry.validateMandatory (tc : TreeContext) (path : List String) : Entry → Except String Unit
  | s@(.mk _ childs _ schema _) => do
    match SchemaElem.getContainer schema with
    | some c => c.mandatoryChildren.forM fun m => s.validateMandatoryWithKeys tc m c.keys.length path
    | none => pure ()
    childs.validateMandatory tc path
/-- The loop over all children. -/
def Childs.validateMandatory (tc : TreeContext) (path : List String) : Childs → Except String Unit
  | .nil => .ok ()
  | .cons _ c rest => do
    c.validateMandatory tc (path ++ [c.pathElemName])
    rest.validateMandatory tc path
end

/-- The test of `ValidateMandatoryWithKeys` at level 0 on the entry `s` at `path`: the attribute is
an active child that is not to be deleted, or the intended-store index has its path. -/
def Entry.mandatoryPresent (tc : TreeContext) (path : List String) (attr : String) (s : Entry) : Bool :=
  (s.filterActiveChoiceCaseChilds.lookup attr).any (!·.shouldDelete) || tc.pathExists (path ++ [attr])

/-- A mandatory child missing below the entry `c` at `path`: `c` is a container, `m` one of its
mandatory children, and `d` an entry as many active levels below `c` as `c` has keys where the
test of `m` fails. -/
def Entry.MandatoryMissing (tc : TreeContext) (path : List String) (c : Entry) : Prop :=
  ∃ con, SchemaElem.getContainer c.schema = some con ∧ ∃ m ∈ con.mandatoryChildren,
    ∃ q, q.length = con.keys.length ∧ ∃ d, c.activeAt q = some d ∧ d.mandatoryPresent tc (path ++ q) m = false

theorem except_bind_unit_eq_ok {ε : Type} {x y : Except ε Unit} :
    (x >>= fun _ => y) = .ok () ↔ x = .ok () ∧ y = .ok () := by
  rcases x with _ | ⟨⟨⟩⟩ <;> simp [bind, Except.bind]

theorem except_exists_error_iff {ε : Type} {x : Except ε Unit} : (∃ err, x = .error err) ↔ x ≠ .ok () := by
  rcases x with _ | ⟨⟨⟩⟩ <;> simp

theorem forM_eq_ok {ε α : Type} (f : α → Except ε Unit) :
    ∀ l : List α, l.forM f = .ok () ↔ ∀ a ∈ l, f a = .ok ()
  | [] => by simp; rfl
  | a :: l => by simp only [List.forM, except_bind_unit_eq_ok, forM_eq_ok f l, List.forall_mem_cons]

theorem Childs.forall_lookup_cons {k : String} {c : Entry} {rest : Childs} (hk : k ∉ rest.keys)
    {P : String → Entry → Prop} :
    (∀ k' c', (Childs.cons k c rest).lookup k' = some c' → P k' c') ↔
      P k c ∧ ∀ k' c', rest.lookup k' = some c' → P k' c' := by
  refine ⟨fun h => ⟨h k c (by simp [lookup]), fun k' c' hc => h k' c' ?_⟩, fun ⟨h0, h1⟩ k' c' hc => ?_⟩
  · have hne : k ≠ k' := by
      rintro rfl
      rw [lookup_eq_none_iff.mpr hk] at hc
      cases hc
    simp [lookup, hne, hc]
  · simp only [lookup] at hc
    split at hc
    · cases hc; subst k'; exact h0
    · exact h1 k' c' hc

@[simp] theorem Entry.validateMandatoryWithKeys_zero (tc : TreeContext) (attr : String) (path : List String)
    (s : Entry) : s.validateMandatoryWithKeys tc attr 0 path =
      if s.mandatoryPresent tc path attr then .ok () else .error (mandatoryChildError path attr) := by
  simp only [validateMandatoryWithKeys, mandatoryPresent]
  rcases Bool.eq_false_or_eq_true ((s.filterActiveChoiceCaseChilds.lookup attr).any (!·.shouldDelete)) with h | h <;>
    rcases Bool.eq_false_or_eq_true (tc.pathExists (path ++ [attr])) with h' | h' <;> simp [h, h']

section Walks

variable (tc : TreeContext)

mutual
theorem Entry.validateMandatoryWithKeys_eq_ok (attr : String) :
    ∀ (level : Nat) {path : List String} (s : Entry), s.WellFormed path →
      (s.validateMandatoryWithKeys tc attr level path = .ok () ↔
        ∀ q, q.length = level → ∀ d, s.activeAt q = some d → d.mandatoryPresent tc (path ++ q) attr = true)
  | 0, path, s, _ => by
    rw [Entry.validateMandatoryWithKeys_zero]
    constructor
    · rintro h q hq d hd
      obtain rfl := List.length_eq_zero.mp hq
      cases hd
      simpa using h
    · intro h
      simpa using h [] rfl s rfl
  | level + 1, path, .mk n childs lv schema r, hw => by
    rw [Entry.validateMandatoryWithKeys, Childs.validateMandatoryWithKeys_eq_ok attr level _ childs hw.2.2]
    constructor
    · rintro h (_ | ⟨k, q⟩) hq d hd
      · cases hq
      · obtain ⟨c, hc, hk, hd⟩ := Entry.activeAt_eq_some_cons hd
        exact h k c hc hk q (Nat.succ.inj hq) d hd
    · intro h k c hc hk q hq d hd
      refine h (k :: q) (by simp [hq]) d ?_
      simp [Entry.activeAt, Entry.filterActiveChoiceCaseChilds, Childs.lookup_filterActive, hk, hc, hd]
theorem Childs.validateMandatoryWithKeys_eq_ok (attr : String) (level : Nat) :
    ∀ {path : List String} (skip : List String) (cs : Childs), cs.WellFormed path →
      (cs.validateMandatoryWithKeys tc attr level path skip = .ok () ↔
        ∀ k c, cs.lookup k = some c → k ∉ skip →
          ∀ q, q.length = level → ∀ d, c.activeAt q = some d → d.mandatoryPresent tc (path ++ k :: q) attr = true)
  | _, _, .nil, _ => by simp [Childs.validateMandatoryWithKeys, Childs.lookup]
  | path, skip, .cons k c rest, ⟨hn, hc, hk, hr⟩ => by
    rw [Childs.forall_lookup_cons hk, ← Childs.validateMandatoryWithKeys_eq_ok attr level skip rest hr]
    by_cases hs : k ∈ skip
    · simp [Childs.validateMandatoryWithKeys, hs]
    · simp only [Childs.validateMandatoryWithKeys, hs, not_false_eq_true, if_true, forall_const,
        except_bind_unit_eq_ok, hn, Entry.validateMandatoryWithKeys_eq_ok attr level c hc, List.append_assoc,
        List.singleton_append]
end

theorem Entry.mandatoryChildren_forM_eq_ok {path : List String} {s : Entry} (hw : s.WellFormed path)
    (con : ContainerSchema) :
    con.mandatoryChildren.forM (fun m => s.validateMandatoryWithKeys tc m con.keys.length path) = .ok () ↔
      ∀ m ∈ con.mandatoryChildren, ∀ q, q.length = con.keys.length → ∀ d, s.activeAt q = some d →
        d.mandatoryPresent tc (path ++ q) m = true := by
  rw [forM_eq_ok]
  exact forall₂_congr fun m _ => validateMandatoryWithKeys_eq_ok tc m _ s hw

theorem Entry.validateMandatory_mk (path : List String) (n : String) (childs : Childs) (lv : LeafVariants)
    (schema : Option SchemaElem) (r : ChoiceCasesResolvers) :
    (Entry.mk n childs lv schema r).validateMandatory tc path =
      ((match SchemaElem.getContainer schema with
        | some c => c.mandatoryChildren.forM fun m =>
            (Entry.mk n childs lv schema r).validateMandatoryWithKeys tc m c.keys.length path
        | none => pure ()) >>= fun _ => childs.validateMandatory tc path) := by
  rw [Entry.validateMandatory]
  split <;> rfl

mutual
theorem Entry.validateMandatory_eq_ok :
    ∀ {path : List String} (e : Entry), e.WellFormed path →
      (e.validateMandatory tc path = .ok () ↔ ∀ p c, e.getAt p = some c → ¬ c.MandatoryMissing tc (path ++ p))
  | path, .mk n childs lv schema r, hw => by
    have hown : (match SchemaElem.getContainer schema with
        | some c => c.mandatoryChildren.forM fun m =>
            (Entry.mk n childs lv schema r).validateMandatoryWithKeys tc m c.keys.length path
        | none => pure ()) = .ok () ↔ ¬ (Entry.mk n childs lv schema r).MandatoryMissing tc path := by
      split
      · rename_i con hcon
        rw [Entry.mandatoryChildren_forM_eq_ok tc hw]
        simp [Entry.MandatoryMissing, hcon]
      · rename_i hcon
        exact ⟨fun _ => by simp [Entry.MandatoryMissing, hcon], fun _ => rfl⟩
    rw [Entry.validateMandatory_mk, except_bind_unit_eq_ok, hown, Childs.validateMandatory_eq_ok childs hw.2.2]
    constructor
    · rintro ⟨h0, h1⟩ (_ | ⟨k, p⟩) c hc
      · cases hc
        simpa using h0
      · obtain ⟨c', hk, hc⟩ := Option.bind_eq_some.mp hc
        simpa using h1 k c' hk p c hc
    · intro h
      refine ⟨by simpa using h [] _ rfl, fun k c hk p c' hc' => ?_⟩
      simpa using h (k :: p) c' (by simp [Entry.getAt, hk, hc'])
theorem Childs.validateMandatory_eq_ok :
    ∀ {path : List String} (cs : Childs), cs.WellFormed path →
      (cs.validateMandatory tc path = .ok () ↔
        ∀ k c, cs.lookup k = some c → ∀ p c', c.getAt p = some c' → ¬ c'.MandatoryMissing tc (path ++ k :: p))
  | _, .nil, _ => by simp [Childs.validateMandatory, Childs.lookup]
  | path, .cons k c rest, ⟨hn, hc, hk, hr⟩ => by
    rw [Childs.validateMandatory, except_bind_unit_eq_ok, Childs.forall_lookup_cons hk,
      Childs.validateMandatory_eq_ok rest hr, hn, Entry.validateMandatory_eq_ok c hc]
    simp only [List.append_assoc, List.singleton_append]
end

/-- The error `ValidateMandatory` reports for the container `c` at `path`: a mandatory child `m` is
missing at the instance `q` below `c`, and the message names the instance's path and `m`. -/
def Entry.MandatoryError (tc : TreeContext) (path : List String) (c : Entry) (err : String) : Prop :=
  ∃ con, SchemaElem.getContainer c.schema = some con ∧ ∃ m ∈ con.mandatoryChildren,
    ∃ q, q.length = con.keys.length ∧ ∃ d, c.activeAt q = some d ∧ d.mandatoryPresent tc (path ++ q) m = false ∧
      err = mandatoryChildError (path ++ q) m

theorem except_bind_unit_eq_error {ε : Type} {x y : Except ε Unit} {err : ε} :
    (x >>= fun _ => y) = .error err ↔ x = .error err ∨ (x = .ok () ∧ y = .error err) := by
  rcases x with _ | ⟨⟨⟩⟩ <;> simp [bind, Except.bind]

theorem forM_eq_error {ε α : Type} (f : α → Except ε Unit) {err : ε} :
    ∀ l : List α, l.forM f = .error err → ∃ a ∈ l, f a = .error err
  | [], h => by cases h
  | a :: l, h => by
    simp only [List.forM, except_bind_unit_eq_error] at h
    rcases h with h | ⟨-, h⟩
    · exact ⟨a, List.mem_cons_self a l, h⟩
    · obtain ⟨b, hb, h⟩ := forM_eq_error f l h
      exact ⟨b, List.mem_cons_of_mem a hb, h⟩

theorem Childs.lookup_cons_of_lookup {k k' : String} {c c' : Entry} {rest : Childs} (hk : k ∉ rest.keys)
    (h : rest.lookup k' = some c') : (Childs.cons k c rest).lookup k' = some c' :=
  ((forall_lookup_cons (P := fun k' c' => (cons k c rest).lookup k' = some c') hk).mp
    (fun _ _ h => h)).2 k' c' h

section Errors

variable (tc : TreeContext)

mutual
theorem Entry.validateMandatoryWithKeys_error (attr : String) {err : String} :
    ∀ (level : Nat) {path : List String} (s : Entry), s.WellFormed path →
      s.validateMandatoryWithKeys tc attr level path = .error err →
        ∃ q, q.length = level ∧ ∃ d, s.activeAt q = some d ∧ d.mandatoryPresent tc (path ++ q) attr = false ∧
          err = mandatoryChildError (path ++ q) attr
  | 0, path, s, _, h => by
    rw [Entry.validateMandatoryWithKeys_zero] at h
    split at h
    · cases h
    · rename_i hp
      cases h
      exact ⟨[], rfl, s, rfl, by simpa using hp, by simp⟩
  | level + 1, path, .mk n childs lv schema r, hw, h => by
    rw [Entry.validateMandatoryWithKeys] at h
    obtain ⟨k, c, hc, hk, q, hq, d, hd, hp, rfl⟩ :=
      Childs.validateMandatoryWithKeys_error attr level _ childs hw.2.2 h
    refine ⟨k :: q, by simp [hq], d, ?_, hp, rfl⟩
    simp [Entry.activeAt, Entry.filterActiveChoiceCaseChilds, Childs.lookup_filterActive, hk, hc, hd]
theorem Childs.validateMandatoryWithKeys_error (attr : String) (level : Nat) {err : String} :
    ∀ {path : List String} (skip : List String) (cs : Childs), cs.WellFormed path →
      cs.validateMandatoryWithKeys tc attr level path skip = .error err →
        ∃ k c, cs.lookup k = some c ∧ k ∉ skip ∧ ∃ q, q.length = level ∧ ∃ d, c.activeAt q = some d ∧
          d.mandatoryPresent tc (path ++ k :: q) attr = false ∧ err = mandatoryChildError (path ++ k :: q) attr
  | _, _, .nil, _, h => by cases h
  | path, skip, .cons k c rest, ⟨hn, hc, hk, hr⟩, h => by
    suffices h : c.validateMandatoryWithKeys tc attr level (path ++ [k]) = .error err ∧ k ∉ skip ∨
        rest.validateMandatoryWithKeys tc attr level path skip = .error err by
      rcases h with ⟨h, hs⟩ | h
      · obtain ⟨q, hq, d, hd, hp, rfl⟩ := Entry.validateMandatoryWithKeys_error attr level c hc h
        exact ⟨k, c, by simp [Childs.lookup], hs, q, hq, d, hd, by simpa using hp, by simp⟩
      · obtain ⟨k', c', hc', hk', rest'⟩ := Childs.validateMandatoryWithKeys_error attr level skip rest hr h
        exact ⟨k', c', Childs.lookup_cons_of_lookup hk hc', hk', rest'⟩
    by_cases hs : k ∈ skip
    · simp only [Childs.validateMandatoryWithKeys, hs, not_true_eq_false, if_false] at h
      exact .inr h
    · simp only [Childs.validateMandatoryWithKeys, hs, not_false_eq_true, if_true, except_bind_unit_eq_error,
        hn] at h
      exact h.imp (⟨·, hs⟩) (·.2)
end

mutual
theorem Entry.validateMandatory_error {err : String} :
    ∀ {path : List String} (e : Entry), e.WellFormed path → e.validateMandatory tc path = .error err →
      ∃ p c, e.getAt p = some c ∧ c.MandatoryError tc (path ++ p) err
  | path, .mk n childs lv schema r, hw, h => by
    rw [Entry.validateMandatory_mk, except_bind_unit_eq_error] at h
    rcases h with h | ⟨-, h⟩
    · refine ⟨[], _, rfl, ?_⟩
      split at h
      · rename_i con hcon
        obtain ⟨m, hm, h⟩ := forM_eq_error _ _ h
        obtain ⟨q, hq, d, hd, hp, rfl⟩ := Entry.validateMandatoryWithKeys_error tc m _ _ hw h
        exact ⟨con, hcon, m, hm, q, hq, d, hd, by simpa using hp, by simp⟩
      · cases h
    · obtain ⟨k, c, hc, p, c', hc', he⟩ := Childs.validateMandatory_error childs hw.2.2 h
      exact ⟨k :: p, c', by simp [Entry.getAt, hc, hc'], by simpa using he⟩
theorem Childs.validateMandatory_error {err : String} :
    ∀ {path : List String} (cs : Childs), cs.WellFormed path → cs.validateMandatory tc path = .error err →
      ∃ k c, cs.lookup k = some c ∧ ∃ p c', c.getAt p = some c' ∧ c'.MandatoryError tc (path ++ k :: p) err
  | _, .nil, _, h => by cases h
  | path, .cons k c rest, ⟨hn, hc, hk, hr⟩, h => by
    rw [Childs.validateMandatory, except_bind_unit_eq_error, hn] at h
    rcases h with h | ⟨-, h⟩
    · obtain ⟨p, c', hc', he⟩ := Entry.validateMandatory_error c hc h
      exact ⟨k, c, by simp [Childs.lookup], p, c', hc', by simpa using he⟩
    · obtain ⟨k', c', hc', rest'⟩ := Childs.validateMandatory_error rest hr h
      exact ⟨k', c', Childs.lookup_cons_of_lookup hk hc', rest'⟩
end

end Errors

end Walks

theorem validateMandatory_error_iff {tc : TreeContext} {path : List String} {e : Entry}
    (hw : e.WellFormed path) :
    (∃ err, e.validateMandatory tc path = .error err) ↔
      ∃ p c, e.getAt p = some c ∧ c.MandatoryMissing tc (path ++ p) := by
  rw [except_exists_error_iff, Ne, Entry.validateMandatory_eq_ok tc e hw]
  simp only [not_forall, not_not, exists_prop]

/-- After `FinishInsertionPhase`, on the root of any tree the code builds. -/
theorem rootValidateMandatory_error_iff {tc : TreeContext} {t : Entry} (ht : Reachable tc t) :
    (∃ err, (rootFinishInsertionPhase tc t).validateMandatory tc [] = .error err) ↔
      ∃ p c, (rootFinishInsertionPhase tc t).getAt p = some c ∧ c.MandatoryMissing tc p := by
  simpa using @validateMandatory_error_iff tc [] _ (wellFormed_rootFinishInsertionPhase tc ht.wellFormed)

/-- And the error it returns names the instance and the mandatory child missing there. -/
theorem rootValidateMandatory_error {tc : TreeContext} {t : Entry} {err : String} (ht : Reachable tc t)
    (h : (rootFinishInsertionPhase tc t).validateMandatory tc [] = .error err) :
    ∃ p c, (rootFinishInsertionPhase tc t).getAt p = some c ∧ c.MandatoryError tc p err :=
  Entry.validateMandatory_error tc _ (wellFormed_rootFinishInsertionPhase tc ht.wellFormed) h

/-- The choice sample with nothing in the store: `x/n` of `owner1` with priority 10, and `y` of
`owner2` with priority 5. -/
def mandatorySampleTree : Entry :=
  buildTree (choiceContext []) choiceRoot
    [.addCacheUpdate ⟨["x", "n"], [1], 10, "owner1"⟩ false, .addCacheUpdate ⟨["y"], [2], 5, "owner2"⟩ true]

theorem rootValidateMandatory_error_iff_sample :
    Reachable (choiceContext []) mandatorySampleTree ∧
      ((∃ err, (rootFinishInsertionPhase (choiceContext []) mandatorySampleTree).validateMandatory
          (choiceContext []) [] = .error err) ↔
        ∃ p c, (rootFinishInsertionPhase (choiceContext []) mandatorySampleTree).getAt p = some c ∧
          c.MandatoryMissing (choiceContext []) p) :=
  have ht : Reachable (choiceContext []) mandatorySampleTree := ⟨_, _, rfl, rfl⟩
  ⟨ht, rootValidateMandatory_error_iff ht⟩

theorem rootValidateMandatory_error_sample :
    Reachable (choiceContext []) mandatorySampleTree ∧
      (rootFinishInsertionPhase (choiceContext []) mandatorySampleTree).validateMandatory (choiceContext []) [] =
        .error "[x]: mandatory child m does not exist" ∧
      ∃ p c, (rootFinishInsertionPhase (choiceContext []) mandatorySampleTree).getAt p = some c ∧
        c.MandatoryError (choiceContext []) p "[x]: mandatory child m does not exist" :=
  have ht : Reachable (choiceContext []) mandatorySampleTree := ⟨_, _, rfl, rfl⟩
  have h : (rootFinishInsertionPhase (choiceContext []) mandatorySampleTree).validateMandatory
      (choiceContext []) [] = .error "[x]: mandatory child m does not exist" := by decide
  ⟨ht, h, rootValidateMandatory_error ht h⟩

/-- The container `x` of the hidden case misses its mandatory child `m`, and `ValidateMandatory`
reports it, although no entry reached through active children misses a mandatory child. -/
theorem mandatory_checked_in_inactive_case :
    Reachable (choiceContext []) mandatorySampleTree ∧
      (rootFinishInsertionPhase (choiceContext []) mandatorySampleTree).validateMandatory (choiceContext []) [] =
        .error "[x]: mandatory child m does not exist" ∧
      ¬ ∃ p c, (rootFinishInsertionPhase (choiceContext []) mandatorySampleTree).activeAt p = some c ∧
        c.MandatoryMissing (choiceContext []) p := by
  refine ⟨⟨_, _, rfl, rfl⟩, by decide, ?_⟩
  have hroot : (SchemaElem.getContainer (rootFinishInsertionPhase (choiceContext []) mandatorySampleTree).schema).map
      (·.mandatoryChildren) = some [] := by decide
  have hkeys : (rootFinishInsertionPhase (choiceContext []) mandatorySampleTree).childs.keys = ["x", "y"] := by
    decide
  have hskip : (rootFinishInsertionPhase (choiceContext []) mandatorySampleTree).skipElements = ["x"] := by
    decide
  have hy : ((rootFinishInsertionPhase (choiceContext []) mandatorySampleTree).childs.lookup "y").map
      (fun e => (e.childs.keys, SchemaElem.getContainer e.schema)) = some ([], none) := by decide
  generalize rootFinishInsertionPhase (choiceContext []) mandatorySampleTree = R at *
  rintro ⟨p, c, hp, con, hcon, m, hm, -⟩
  rcases p with _ | ⟨k, p⟩
  · cases hp
    rw [hcon] at hroot
    simp_all
  · obtain ⟨c', hc', hk, hp'⟩ := Entry.activeAt_eq_some_cons hp
    obtain rfl : k = "y" := by
      have := Childs.mem_keys_of_lookup hc'
      simp_all
    rw [hc'] at hy
    simp only [Option.map_some', Option.some.injEq, Prod.mk.injEq] at hy
    obtain ⟨rfl, rfl⟩ := Entry.activeAt_of_keys_nil hy.1 hp'
    simp [hy.2] at hcon

end DataServer
