import DataServer.Tree.Restore
import DataServer.Tree.Deletes

/-! Choice resolution as `populateChoiceCaseResolvers` feeds it. The store is queried for the
precedence of the branch at the container's own path, once per element: in whatever order the
cases were added, every element of every choice gets the same old value, so the old values rank no
case above another. -/
namespace DataServer

namespace ChoiceCasesResolver

theorem allElements_setValue_of {Q Q' : ChoicesCaseElement → Prop} {r : ChoiceCasesResolver} {n : String}
    {v : Int32} {new : Bool} (h : r.AllElements Q)
    (hQ : ∀ e, Q e → Q' (if e.name = n then (if new then { e with new := v } else { e with old := v }) else e)) :
    (r.setValue n v new).AllElements Q' := by
  intro c hc e he
  simp only [setValue, List.mem_map] at hc
  obtain ⟨c₀, hc₀, rfl⟩ := hc
  simp only [List.mem_map] at he
  obtain ⟨e₀, he₀, rfl⟩ := he
  exact hQ e₀ (h c₀ hc₀ e₀ he₀)

theorem mem_getElementNames {r : ChoiceCasesResolver} {c : ChoicesCase} {e : ChoicesCaseElement}
    (hc : c ∈ r.cases) (he : e ∈ c.elements) : e.name ∈ r.getElementNames :=
  List.mem_flatMap.mpr ⟨c, hc, List.mem_map_of_mem _ he⟩

end ChoiceCasesResolver

section Populate

variable (tc : TreeContext) (path : List String) (s : Entry)

/-- What the elements of a resolver hold while its elements are populated in turn: an old value that
is `math.MaxInt32` or `v`, and `v` for the elements already populated. -/
def OldFed (v : Int32) (names done : List String) (e : ChoicesCaseElement) : Prop :=
  (e.old = Int32.maxInt32 ∨ e.old = v) ∧ (e.name ∈ done → e.old = v) ∧ e.name ∈ names

theorem populateElement_oldFed {r : ChoiceCasesResolver} {names done : List String} {elem : String}
    (h : r.AllElements (OldFed (tc.getBranchesHighesPrecedence path
      (cacheUpdateFilterExcludeOwner tc.actualOwner)) names done)) :
    (s.populateElement tc path r elem).AllElements (OldFed (tc.getBranchesHighesPrecedence path
      (cacheUpdateFilterExcludeOwner tc.actualOwner)) names (done ++ [elem])) := by
  generalize hv : tc.getBranchesHighesPrecedence path (cacheUpdateFilterExcludeOwner tc.actualOwner) = v at h
  have hset : (if v < Int32.maxInt32 then r.setValue elem v false else r).AllElements
      fun e => OldFed v names done e ∧ (e.name = elem → e.old = v) := by
    split
    · refine ChoiceCasesResolver.allElements_setValue_of h fun e he => ?_
      split
      · rename_i hn
        exact ⟨⟨.inr rfl, fun _ => rfl, hn ▸ he.2.2⟩, fun _ => rfl⟩
      · rename_i hn
        exact ⟨he, fun h' => absurd h' hn⟩
    · rename_i hlt
      have hv' : v = Int32.maxInt32 := le_antisymm (Int32.le_maxInt32 v) (not_lt.mp hlt)
      exact fun c hc e he' => ⟨h c hc e he', fun _ => (h c hc e he').1.elim (·.trans hv'.symm) id⟩
  have hdone : ∀ e, (OldFed v names done e ∧ (e.name = elem → e.old = v)) → OldFed v names (done ++ [elem]) e :=
    fun e ⟨⟨h₁, h₂, h₃⟩, h₄⟩ => ⟨h₁, fun hm => (List.mem_append.mp hm).elim h₂
      fun hm => h₄ (List.mem_singleton.mp hm), h₃⟩
  unfold Entry.populateElement
  rw [hv]
  dsimp only
  split
  · refine ChoiceCasesResolver.allElements_setValue_of hset fun e he => hdone _ ?_
    split <;> exact he
  · exact fun c hc e he => hdone e (hset c hc e he)

theorem foldl_populateElement_oldFed {names : List String} :
    ∀ (ns done : List String) {r : ChoiceCasesResolver},
      r.AllElements (OldFed (tc.getBranchesHighesPrecedence path
        (cacheUpdateFilterExcludeOwner tc.actualOwner)) names done) →
      (ns.foldl (s.populateElement tc path) r).AllElements (OldFed (tc.getBranchesHighesPrecedence path
        (cacheUpdateFilterExcludeOwner tc.actualOwner)) names (done ++ ns))
  | [], _, _, h => by simpa using h
  | n :: ns, done, _, h => by
    simpa using foldl_populateElement_oldFed ns (done ++ [n]) (populateElement_oldFed tc path s h)

/-- Whatever order its cases were added in, `populateChoiceCaseResolvers` feeds every element of
every choice of the entry at `path` one old value: the store's precedence on the whole branch at
`path`, whatever the element. -/
theorem populatedResolvers_old (hs : s.ResolversFresh) :
    ∀ r ∈ s.populatedResolvers tc path, r.2.AllElements fun e =>
      e.old = tc.getBranchesHighesPrecedence path (cacheUpdateFilterExcludeOwner tc.actualOwner) := by
  intro r hr
  simp only [Entry.populatedResolvers, List.mem_map] at hr
  obtain ⟨⟨name, r₀⟩, hr₀, rfl⟩ := hr
  obtain ⟨_, _, hs⟩ := hs
  rw [hs] at hr₀
  have hinit : r₀.AllElements (OldFed (tc.getBranchesHighesPrecedence path
      (cacheUpdateFilterExcludeOwner tc.actualOwner)) r₀.getElementNames []) := fun c hc e he =>
    ⟨.inl ((initChoiceCasesResolvers_of (Q := (·.old = Int32.maxInt32)) (fun _ => rfl) hr₀) c hc e he),
      fun h => absurd h (List.not_mem_nil _), ChoiceCasesResolver.mem_getElementNames hc he⟩
  intro c hc e he
  have := foldl_populateElement_oldFed tc path s _ [] hinit c hc e he
  exact this.2.1 (by simpa using this.2.2)

end Populate

/-- The device of the choice samples: the root is `choiceSchema`, `x` a container whose child `m` is
mandatory, everything else a string leaf; the intent applied is `owner2`'s. -/
def choiceContext (storeIndex : List (String × List Update)) : TreeContext where
  getSchema p := .ok (some (if p = [] then choiceSchema
    else if p = ["x"] then ⟨some (.container ⟨[], ["m"], false, []⟩)⟩
    else ⟨some (.field ⟨"string", ""⟩)⟩))
  actualOwner := "owner2"
  storeIndex := storeIndex
  caseOrder := .schema

def choiceRoot : Entry :=
  .mk "" .nil [] (some choiceSchema) (initChoiceCasesResolvers .schema [] (some choiceSchema))

theorem populatedResolvers_old_sample :
    choiceRoot.ResolversFresh ∧
      ∀ r ∈ choiceRoot.populatedResolvers (choiceContext []) [], r.2.AllElements fun e =>
        e.old = (choiceContext []).getBranchesHighesPrecedence []
          (cacheUpdateFilterExcludeOwner (choiceContext []).actualOwner) :=
  ⟨⟨_, _, rfl⟩, populatedResolvers_old (choiceContext []) [] choiceRoot ⟨_, _, rfl⟩⟩

/-- The old value the spec asks for an element of the container at `path`: the store's precedence on
the branch at `path` followed by the element, other owners only. -/
def TreeContext.elementOld (tc : TreeContext) (path : List String) (elem : String) : Int32 :=
  tc.getBranchesHighesPrecedence (path ++ [elem]) (cacheUpdateFilterExcludeOwner tc.actualOwner)

/-- The new value of an element of `s`: the precedence of its child's branch, `math.MaxInt32`
without a child. -/
def Entry.elementNew (s : Entry) (elem : String) : Int32 :=
  ((s.childs.lookup elem).map Entry.getHighestPrecedenceValueOfBranch).getD Int32.maxInt32

/-- `owner2` sets `y` (case `caseB`) with priority 5 and the store holds only `z` of `owner1` with
priority 1: both elements are fed the old value 1, the cases tie, and `caseA` stays visible
while `y`, which the spec's values make win, is hidden. -/
theorem choice_resolution_ignores_element_branch :
    Reachable (choiceContext [("z", [⟨["z"], [7], 1, "owner1"⟩])])
        (buildTree (choiceContext [("z", [⟨["z"], [7], 1, "owner1"⟩])]) choiceRoot
          [.addCacheUpdate ⟨["y"], [2], 5, "owner2"⟩ true]) ∧
      (rootFinishInsertionPhase (choiceContext [("z", [⟨["z"], [7], 1, "owner1"⟩])])
        (buildTree (choiceContext [("z", [⟨["z"], [7], 1, "owner1"⟩])]) choiceRoot
          [.addCacheUpdate ⟨["y"], [2], 5, "owner2"⟩ true])).skipElements = ["y"] ∧
      min ((choiceContext [("z", [⟨["z"], [7], 1, "owner1"⟩])]).elementOld [] "x")
        ((buildTree (choiceContext [("z", [⟨["z"], [7], 1, "owner1"⟩])]) choiceRoot
          [.addCacheUpdate ⟨["y"], [2], 5, "owner2"⟩ true]).elementNew "x") = Int32.maxInt32 ∧
      min ((choiceContext [("z", [⟨["z"], [7], 1, "owner1"⟩])]).elementOld [] "y")
        ((buildTree (choiceContext [("z", [⟨["z"], [7], 1, "owner1"⟩])]) choiceRoot
          [.addCacheUpdate ⟨["y"], [2], 5, "owner2"⟩ true]).elementNew "y") = 5 :=
  ⟨⟨_, _, rfl, rfl⟩, by decide, by decide, by decide⟩

/-- The spec's scenario of a choice switch (the store holds `x/n` of `owner1` at 10, `owner2` sets
`y` at 5): the active case switches from `caseA` to `caseB`, and `GetDeletes` emits the case
name `caseA`, no data node, where the scenario expects `x`. -/
theorem choice_switch_deletes_case_name :
    Reachable (choiceContext [("x/n", [⟨["x", "n"], [1], 10, "owner1"⟩])])
        (buildTree (choiceContext [("x/n", [⟨["x", "n"], [1], 10, "owner1"⟩])]) choiceRoot
          [.addCacheUpdate ⟨["y"], [2], 5, "owner2"⟩ true]) ∧
      ((rootFinishInsertionPhase (choiceContext [("x/n", [⟨["x", "n"], [1], 10, "owner1"⟩])])
        (buildTree (choiceContext [("x/n", [⟨["x", "n"], [1], 10, "owner1"⟩])]) choiceRoot
          [.addCacheUpdate ⟨["y"], [2], 5, "owner2"⟩ true])).choicesResolvers.map fun r =>
            (r.2.getOldBestCaseName, r.2.getBestCaseName)) = [("caseA", "caseB")] ∧
      rootGetDeletes (rootFinishInsertionPhase (choiceContext [("x/n", [⟨["x", "n"], [1], 10, "owner1"⟩])])
        (buildTree (choiceContext [("x/n", [⟨["x", "n"], [1], 10, "owner1"⟩])]) choiceRoot
          [.addCacheUpdate ⟨["y"], [2], 5, "owner2"⟩ true])) = .ok [["caseA"]] :=
  ⟨⟨_, _, rfl, rfl⟩, by decide, by decide⟩

end DataServer
