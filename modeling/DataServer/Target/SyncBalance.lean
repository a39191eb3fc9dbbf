import DataServer.Target.Netconf
import Mathlib.Algebra.Order.BigOperators.Group.List

/-! What the consumer of the sync channel can rely on under any interleaving of `Sync`'s goroutines:
rounds may mix, but the channel stays balanced. Each list of messages has a `debt`, the open
rounds it needs before it, and a `peak`, the most it holds open; an interleaving's are at most
the sums of the goroutines'. -/
namespace DataServer

namespace SyncUpdate

variable {ν : Type}

/-- What a message adds to the number of open rounds. -/
def weight : SyncUpdate ν → Int
  | .start _ => 1
  | .update _ => 0
  | .finish => -1

/-- The open rounds a message needs when it arrives: none for a `Start`, one for an `Update` or an
`End`. -/
def need : SyncUpdate ν → Int
  | .start _ => 0
  | _ => 1

/-- The number of `Start`s less the number of `End`s among the messages. -/
def balance (ms : List (SyncUpdate ν)) : Int := (ms.map weight).sum

/-- The least number of open rounds after which the messages `ms` each arrive with the open rounds
they need. -/
def debt : List (SyncUpdate ν) → Int
  | [] => 0
  | m :: ms => max m.need (debt ms - m.weight)

/-- The most rounds the messages `ms` open at once, counted from their first. -/
def peak : List (SyncUpdate ν) → Int
  | [] => 0
  | m :: ms => max 0 (m.weight + peak ms)

@[simp] theorem balance_nil : balance ([] : List (SyncUpdate ν)) = 0 := rfl

@[simp] theorem balance_cons (m : SyncUpdate ν) (ms : List (SyncUpdate ν)) :
    balance (m :: ms) = m.weight + balance ms := List.sum_cons

@[simp] theorem balance_append (a b : List (SyncUpdate ν)) : balance (a ++ b) = balance a + balance b := by
  simp [balance]

theorem need_nonneg (m : SyncUpdate ν) : 0 ≤ m.need := by
  cases m <;> simp [need]

theorem debt_nonneg : ∀ ms : List (SyncUpdate ν), 0 ≤ debt ms
  | [] => le_refl 0
  | m :: _ => le_trans (need_nonneg m) (le_max_left _ _)

theorem peak_nonneg : ∀ ms : List (SyncUpdate ν), 0 ≤ peak ms
  | [] => le_refl 0
  | _ :: _ => le_max_left _ _

theorem debt_append : ∀ a b : List (SyncUpdate ν), debt (a ++ b) = max (debt a) (debt b - balance a)
  | [], b => by simp [debt, max_eq_right (debt_nonneg b)]
  | m :: a, b => by
    rw [List.cons_append, debt, debt, debt_append a b, balance_cons]
    omega

theorem peak_append : ∀ a b : List (SyncUpdate ν), peak (a ++ b) = max (peak a) (balance a + peak b)
  | [], b => by simp [peak, max_eq_right (peak_nonneg b)]
  | m :: a, b => by
    rw [List.cons_append, peak, peak, peak_append a b, balance_cons]
    omega

theorem need_le_debt_add_balance (pre : List (SyncUpdate ν)) (m : SyncUpdate ν) (post : List (SyncUpdate ν)) :
    m.need ≤ debt (pre ++ m :: post) + balance pre := by
  have h : m.need ≤ debt (m :: post) := le_max_left _ _
  rw [debt_append]
  omega

theorem balance_mem_Icc (pre post : List (SyncUpdate ν)) :
    -debt (pre ++ post) ≤ balance pre ∧ balance pre ≤ peak (pre ++ post) := by
  have := debt_nonneg post
  have := peak_nonneg post
  rw [debt_append, peak_append]
  omega

theorem round_debt_peak_balance (force : Bool) (ns : List ν) :
    debt (round force ns) = 0 ∧ peak (round force ns) = 1 ∧ balance (round force ns) = 0 := by
  have hu : ∀ ns : List ν, debt (ns.map update ++ [finish]) = 1 ∧ peak (ns.map update ++ [finish]) = 0 ∧
      balance (ns.map update ++ [finish]) = -1 := by
    intro ns
    induction ns with
    | nil => simp [debt, peak, weight, need, balance]
    | cons n ns ih =>
      rw [List.map_cons, List.cons_append, debt, peak, balance_cons, ih.1, ih.2.1, ih.2.2]
      simp [need, weight]
  rw [round, List.cons_append, debt, peak, balance_cons, (hu ns).1, (hu ns).2.1, (hu ns).2.2]
  simp [need, weight]

end SyncUpdate

open SyncUpdate

theorem SyncRounds.debt_peak_balance {ν : Type} {ms : List (SyncUpdate ν)} (h : SyncRounds ms) :
    debt ms = 0 ∧ peak ms ≤ 1 ∧ balance ms = 0 := by
  obtain ⟨rounds, rfl⟩ := h
  induction rounds with
  | nil => exact ⟨rfl, zero_le_one, rfl⟩
  | cons r rounds ih =>
    obtain ⟨hd, hp, hb⟩ := round_debt_peak_balance r.1 r.2
    rw [List.flatMap_cons, debt_append, peak_append, balance_append, hd, hp, hb, ih.1, ih.2.2]
    exact ⟨rfl, by omega, rfl⟩

theorem sum_map_set {α : Type} (f : α → Int) :
    ∀ (qs : List α) (i : Nat) {q : α} (a : α), qs[i]? = some q → ((qs.set i a).map f).sum + f q = (qs.map f).sum + f a
  | [], _, _, _, h => by simp at h
  | _ :: _, 0, _, _, h => by
    simp only [List.getElem?_cons_zero, Option.some.injEq] at h
    subst h
    simp only [List.set_cons_zero, List.map_cons, List.sum_cons]
    omega
  | _ :: qs, i + 1, _, a, h => by
    simp only [List.getElem?_cons_succ] at h
    have := sum_map_set f qs i a h
    simp only [List.set_cons_succ, List.map_cons, List.sum_cons]
    omega

theorem le_sum_map_of_getElem? {α : Type} {f : α → Int} (hf : ∀ q, 0 ≤ f q) {qs : List α} {i : Nat} {q : α}
    (h : qs[i]? = some q) : f q ≤ (qs.map f).sum :=
  List.single_le_sum (fun d hd => by obtain ⟨q, -, rfl⟩ := List.mem_map.1 hd; exact hf q) _
    (List.mem_map_of_mem f (List.getElem?_mem h))

theorem sum_map_eq_zero {α : Type} {f : α → Int} {qs : List α} (hf : ∀ q ∈ qs, f q = 0) : (qs.map f).sum = 0 :=
  List.sum_eq_zero fun b hb => by
    obtain ⟨q, hq, rfl⟩ := List.mem_map.1 hb
    exact hf q hq

theorem Interleaving.debt_peak_balance {ν : Type} {qs : List (List (SyncUpdate ν))} {out : List (SyncUpdate ν)}
    (h : Interleaving qs out) :
    debt out ≤ (qs.map debt).sum ∧ peak out ≤ (qs.map peak).sum ∧ balance out = (qs.map balance).sum := by
  induction h with
  | @nil qs hq =>
    have h0 : ∀ f : List (SyncUpdate ν) → Int, f [] = 0 → (qs.map f).sum = 0 := fun f h0 =>
      sum_map_eq_zero fun q hmem => by rw [hq q hmem, h0]
    rw [h0 debt rfl, h0 peak rfl, h0 balance rfl]
    exact ⟨le_refl 0, le_refl 0, rfl⟩
  | @send qs i x xs out hi _ ih =>
    have hd := sum_map_set debt qs i xs hi
    have hp := sum_map_set peak qs i xs hi
    have hb := sum_map_set balance qs i xs hi
    have hdx := le_sum_map_of_getElem? debt_nonneg hi
    have hpx := le_sum_map_of_getElem? peak_nonneg hi
    have hx : x.need ≤ debt (x :: xs) ∧ debt xs - x.weight ≤ debt (x :: xs) := max_le_iff.1 (le_refl _)
    have hy : 0 ≤ peak (x :: xs) ∧ x.weight + peak xs ≤ peak (x :: xs) := max_le_iff.1 (le_refl _)
    rw [debt, peak, balance_cons, ih.2.2]
    rw [balance_cons] at hb
    exact ⟨max_le (by omega) (by omega), max_le (by omega) (by omega), by omega⟩

/-- The sync channel stays balanced for any entries, goroutine runs and interleaving: it has
received at least as many `Start`s as `End`s and at most one more per entry, every other message
arrives while `Start`s outnumber `End`s, and once the goroutines stop the two counts are equal. -/
theorem syncDelivers_balanced {ν : Type} {runs : List (SyncRun ν × List (SyncRun ν))}
    {out : List (SyncUpdate ν)} (h : SyncDelivers runs out) :
    balance out = 0 ∧ (∀ pre post, out = pre ++ post → 0 ≤ balance pre ∧ balance pre ≤ runs.length) ∧
      ∀ pre m post, out = pre ++ m :: post → (∀ f, m ≠ .start f) → 0 < balance pre := by
  have hg : ∀ q ∈ runs.map fun r => syncGoroutine r.1 r.2, debt q = 0 ∧ peak q ≤ 1 ∧ balance q = 0 := by
    intro q hq
    obtain ⟨r, -, rfl⟩ := List.mem_map.1 hq
    exact (syncGoroutine_rounds r.1 r.2).debt_peak_balance
  have hpeak : ((runs.map fun r => syncGoroutine r.1 r.2).map peak).sum ≤ runs.length := by
    have := List.sum_le_card_nsmul ((runs.map fun r => syncGoroutine r.1 r.2).map peak) 1 fun p hp => by
      obtain ⟨q, hq, rfl⟩ := List.mem_map.1 hp
      exact (hg q hq).2.1
    simpa using this
  obtain ⟨hd, hp, hb⟩ := Interleaving.debt_peak_balance h
  rw [sum_map_eq_zero fun q hq => (hg q hq).1] at hd
  refine ⟨by rw [hb, sum_map_eq_zero fun q hq => (hg q hq).2.2], ?_, ?_⟩
  · rintro pre post rfl
    have := balance_mem_Icc pre post
    omega
  · rintro pre m post rfl hs
    have := need_le_debt_add_balance pre m post
    cases m with
    | start f => exact absurd rfl (hs f)
    | update n => simp only [need] at this; omega
    | finish => simp only [need] at this; omega

theorem syncDelivers_balanced_sample :
    SyncDelivers [(syncRunOk, []), (syncRunOk, [])]
        [.start true, .start true, .update (), .update (), .finish, .finish] ∧
      balance (ν := Unit) [.start true, .start true, .update (), .update (), .finish, .finish] = 0 ∧
      (∀ pre post : List (SyncUpdate Unit),
        [.start true, .start true, .update (), .update (), .finish, .finish] = pre ++ post →
          0 ≤ balance pre ∧ balance pre ≤ 2) ∧
      ∀ (pre : List (SyncUpdate Unit)) m post,
        [.start true, .start true, .update (), .update (), .finish, .finish] = pre ++ m :: post →
          (∀ f, m ≠ .start f) → 0 < balance pre :=
  have h : SyncDelivers [(syncRunOk, []), (syncRunOk, [])]
      [.start true, .start true, .update (), .update (), .finish, .finish] :=
    .send (i := 0) rfl (.send (i := 1) rfl (.send (i := 0) rfl (.send (i := 1) rfl
      (.send (i := 0) rfl (.send (i := 1) rfl (.nil (by simp)))))))
  ⟨h, syncDelivers_balanced h⟩

end DataServer
