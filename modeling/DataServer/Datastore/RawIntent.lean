import DataServer.Go
import Mathlib.Data.List.Basic
import Mathlib.Data.List.GetD
import Mathlib.Data.Nat.Digits
import Mathlib.Data.String.Basic
import Mathlib.Data.Prod.Lex

/-! Raw intents in the INTENTS store. `saveRawIntent` keeps each request under the one-element
path `rawIntentName name priority`; `listRawIntent` reads the keys back and decodes them into
(name, priority) pairs. A Go string is the Lean string of its characters (the intent names come
from protobuf `string` fields, which hold valid UTF-8), and `strings.TrimPrefix`,
`strings.Split`, `strings.Join`, `fmt`'s `%d` and `strconv.Atoi` act on the character lists. -/
namespace DataServer

namespace Go

/-- `strings.TrimPrefix`. -/
def trimPrefix (s pre : List Char) : List Char := if pre.isPrefixOf s then s.drop pre.length else s

/-- `strings.Split` with a one-character separator. -/
def split (s : List Char) (sep : Char) : List (List Char) := s.splitOn sep

/-- `strings.Join` with a one-character separator. -/
def join (elems : List (List Char)) (sep : Char) : List Char := [sep].intercalate elems

/-- The decimal digits of `n`, most significant first, `"0"` for zero. -/
def decimal (n : Nat) : List Char :=
  if n = 0 then ['0'] else ((Nat.digits 10 n).map Nat.digitChar).reverse

/-- `%d` of an integer: a minus sign for a negative value, then the digits of its magnitude. -/
def formatInt (i : Int) : List Char := if i < 0 then '-' :: decimal i.natAbs else decimal i.natAbs

/-- `(*NumError).Error()` of an `Atoi` call on `num`. -/
def NumError.text (num : List Char) : NumError → String := NumError.message "Atoi" ⟨num⟩

/-- `strconv.Atoi` on a 64-bit platform: `ParseInt(s, 10, 0)`, whose bit size 0 is 64; its fast path
for fewer than 19 bytes gives the same results. -/
def atoi (s : List Char) : Except NumError Int := parseInt s

end Go

namespace Go

theorem digitChar_spec : ∀ d < 10, (Nat.digitChar d).toNat = 48 + d ∧ (Nat.digitChar d).isDigit := by
  decide

theorem digitsValue_append_singleton (ds : List Char) (c : Char) :
    digitsValue (ds ++ [c]) = 10 * digitsValue ds + (c.toNat - 48) := by
  simp only [digitsValue, List.foldl_append, List.foldl_cons, List.foldl_nil]

theorem digitsValue_reverse_map (L : List Nat) (hL : ∀ d ∈ L, d < 10) :
    digitsValue (L.map Nat.digitChar).reverse = Nat.ofDigits 10 L := by
  induction L with
  | nil => rfl
  | cons d L ih =>
    have hd := (digitChar_spec d (hL d (List.mem_cons_self d L))).1
    rw [List.map_cons, List.reverse_cons, digitsValue_append_singleton,
      ih fun e he => hL e (List.mem_cons_of_mem d he), Nat.ofDigits_cons, hd]
    omega

theorem digitsValue_decimal (n : Nat) : digitsValue (decimal n) = n := by
  unfold decimal
  split
  · subst n; rfl
  · rw [digitsValue_reverse_map _ fun d hd => Nat.digits_lt_base (by norm_num) hd, Nat.ofDigits_digits]

theorem decimal_ne_nil (n : Nat) : decimal n ≠ [] := by
  unfold decimal
  split
  · simp
  · simpa using Nat.digits_ne_nil_iff_ne_zero.2 ‹_›

theorem all_isDigit_decimal (n : Nat) : (decimal n).all Char.isDigit := by
  unfold decimal
  split
  · rfl
  · refine List.all_eq_true.2 fun c hc => ?_
    obtain ⟨d, hd, rfl⟩ := List.mem_map.1 (List.mem_reverse.1 hc)
    exact (digitChar_spec d (Nat.digits_lt_base (by norm_num) hd)).2

theorem not_mem_decimal {c : Char} (hc : c.isDigit = false) (n : Nat) : c ∉ decimal n :=
  fun h => by simpa [hc] using List.all_eq_true.1 (all_isDigit_decimal n) c h

theorem splitSign_decimal (n : Nat) : splitSign (decimal n) = (false, decimal n) := by
  obtain ⟨c, ds, hcd⟩ := List.exists_cons_of_ne_nil (decimal_ne_nil n)
  have hc : c.isDigit := List.all_eq_true.1 (all_isDigit_decimal n) c (hcd ▸ List.mem_cons_self c ds)
  have hm : c ≠ '-' := by rintro rfl; exact absurd hc (by decide)
  have hp : c ≠ '+' := by rintro rfl; exact absurd hc (by decide)
  rw [hcd, splitSign, if_neg hm, if_neg hp]

theorem atoi_formatInt {i : Int} (h1 : -2 ^ 63 ≤ i) (h2 : i < 2 ^ 63) : atoi (formatInt i) = .ok i := by
  have hv : (decimal i.natAbs).foldl (fun n c => 10 * n + (c.toNat - 48)) 0 = i.natAbs := digitsValue_decimal _
  have hu : parseUint (decimal i.natAbs) = .ok i.natAbs := by
    rw [parseUint, if_neg (decimal_ne_nil _), parseUintLoop_of_digits _ 0 (all_isDigit_decimal _)
      (by rw [hv]; show i.natAbs ≤ 2 ^ 64 - 1; omega), hv]
  have hs : splitSign (formatInt i) = (decide (i < 0), decimal i.natAbs) := by
    unfold formatInt
    split
    · simp [splitSign, *]
    · simp [splitSign_decimal, *]
  have hne : formatInt i ≠ [] := by
    unfold formatInt
    split
    · exact List.cons_ne_nil _ _
    · exact decimal_ne_nil _
  unfold atoi parseInt
  rw [if_neg hne, hs]
  simp only [hu]
  exact int64OfSigned_natAbs h1 h2

theorem splitOnP_append_of_sep {α : Type} (p : α → Bool) (xs ys : List α) {a : α} (ha : p a) :
    (xs ++ a :: ys).splitOnP p = xs.splitOnP p ++ ys.splitOnP p := by
  induction xs with
  | nil => simp [ha]
  | cons x xs ih =>
    rw [List.cons_append, List.splitOnP_cons, List.splitOnP_cons, ih]
    split
    · rfl
    · cases h : xs.splitOnP p with
      | nil => exact absurd h (List.splitOnP_ne_nil p xs)
      | cons _ _ => rfl

theorem split_append_sep (xs ys : List Char) (sep : Char) (hy : sep ∉ ys) :
    split (xs ++ sep :: ys) sep = split xs sep ++ [ys] := by
  simp only [split, List.splitOn]
  rw [splitOnP_append_of_sep (fun x => x == sep) xs ys (beq_self_eq_true sep),
    List.splitOnP_eq_single _ ys fun y hy' h => hy (by simpa using (beq_iff_eq.1 h) ▸ hy')]

theorem split_ne_nil (s : List Char) (sep : Char) : split s sep ≠ [] := List.splitOnP_ne_nil _ s

theorem join_split (s : List Char) (sep : Char) : join (split s sep) sep = s := List.intercalate_splitOn s sep

end Go

/-- `rawIntentPrefix`. -/
def rawIntentPrefix : String := "__raw_intent__"

/-- `intentRawNameSep`, the one-character string `"_"`. -/
def intentRawNameSep : Char := '_'

/-- `sdcpb.Intent` as `listRawIntent` fills it: the name and the priority. -/
structure Intent where
  intent : String
  priority : Int32
deriving DecidableEq, Repr

/-- `rawIntentName`: `fmt.Sprintf("%s%s%s%d", rawIntentPrefix, name, intentRawNameSep, pr)`. -/
def rawIntentName (name : String) (pr : Int32) : String :=
  ⟨rawIntentPrefix.toList ++ name.toList ++ intentRawNameSep :: Go.formatInt pr.val⟩

/-- The body of `listRawIntent`'s loop: one key read back to its intent; an empty path panics, as
the error message indexes it. -/
def rawIntentOfPath : List String → Except Fault Intent
  | [] => .error (.panic "runtime error: index out of range [0] with length 0")
  | key :: _ =>
    let intentRawName := Go.trimPrefix key.toList rawIntentPrefix.toList
    let intentNameComp := Go.split intentRawName intentRawNameSep
    let inc := intentNameComp.length
    if inc < 2 then .error (.error ("malformed raw intent name: " ++ Go.quote key))
    else
      let last := intentNameComp.getD (inc - 1) []
      match Go.atoi last with
      | .error err => .error (.error ("malformed raw intent name: " ++ Go.quote key ++ ": " ++ err.text last))
      | .ok pr => .ok ⟨⟨Go.join (intentNameComp.take (inc - 1)) intentRawNameSep⟩, Int32.ofInt pr⟩

/-- The comparison `listRawIntent` passes to `sort.Slice`: by priority, then by name. -/
def intentLess (a b : Intent) : Bool :=
  if a.priority = b.priority then a.intent < b.intent else a.priority < b.priority

/-- `listRawIntent` over the keys a keys-only read of the INTENTS store returns; the unstable
`sort.Slice` gives one list on distinct intents, here that of `List.mergeSort`. -/
def listRawIntent (upds : List (List String)) : Except Fault (List Intent) :=
  if upds.length = 0 then .ok []
  else do
    let intents ← upds.mapM rawIntentOfPath
    pure (intents.mergeSort fun a b => !intentLess b a)

theorem rawIntentOfPath_rawIntentName (name : String) (pr : Int32) :
    rawIntentOfPath [rawIntentName name pr] = .ok ⟨name, pr⟩ := by
  have hpre : Go.trimPrefix (rawIntentName name pr).toList rawIntentPrefix.toList =
      name.toList ++ intentRawNameSep :: Go.formatInt pr.val := by
    simp [Go.trimPrefix, rawIntentName, List.append_assoc]
  have hsep : intentRawNameSep ∉ Go.formatInt pr.val := by
    unfold Go.formatInt
    split
    · simp only [List.mem_cons, not_or]
      exact ⟨by decide, Go.not_mem_decimal (by decide) _⟩
    · exact Go.not_mem_decimal (by decide) _
  have hint : Go.atoi (Go.formatInt pr.val) = .ok pr.val :=
    Go.atoi_formatInt (by have := pr.ge_min; omega) (by have := pr.le_max; omega)
  have hlen : ¬ (Go.split name.toList intentRawNameSep).length + 1 < 2 := by
    have := List.length_pos.2 (Go.split_ne_nil name.toList intentRawNameSep)
    omega
  simp only [rawIntentOfPath, hpre, Go.split_append_sep _ _ _ hsep, hlen, if_false,
    List.length_append, List.length_singleton, Nat.add_sub_cancel,
    List.getD_append_right _ _ _ _ (le_refl _), Nat.sub_self, List.getD_cons_zero, hint,
    List.take_left' rfl, Go.join_split, Int32.ofInt_self]
  rfl

/-- The order `listRawIntent` sorts by, as a lexicographic key. -/
def Intent.key (i : Intent) : Int32 ×ₗ String := toLex (i.priority, i.intent)

theorem intentLess_iff (a b : Intent) : intentLess a b = true ↔ a.key < b.key := by
  simp only [intentLess, Intent.key, Prod.Lex.lt_iff]
  split <;> simp_all

theorem not_intentLess_iff (a b : Intent) : (!intentLess b a) = true ↔ a.key ≤ b.key := by
  rw [Bool.not_eq_true', ← Bool.not_eq_true, intentLess_iff, not_lt]

theorem sorted_mergeSort_intentLess (l : List Intent) (hl : (l.map fun i => (i.intent, i.priority)).Nodup) :
    (l.mergeSort fun a b => !intentLess b a).Sorted fun a b => a.key < b.key := by
  have hle : (l.mergeSort fun a b => !intentLess b a).Pairwise fun a b => (!intentLess b a) = true :=
    List.sorted_mergeSort (fun a b c hab hbc => (not_intentLess_iff a c).2
      (le_trans ((not_intentLess_iff a b).1 hab) ((not_intentLess_iff b c).1 hbc)))
    (fun a b => by
      rcases le_total a.key b.key with h | h
      · simp [(not_intentLess_iff a b).2 h]
      · simp [(not_intentLess_iff b a).2 h]) l
  have hne : (l.mergeSort fun a b => !intentLess b a).Pairwise fun a b =>
      (a.intent, a.priority) ≠ (b.intent, b.priority) :=
    List.pairwise_map.1 (((List.mergeSort_perm l _).map _).nodup_iff.2 hl)
  refine (hle.and hne).imp fun {a b} ⟨hab, hd⟩ => lt_of_le_of_ne ((not_intentLess_iff a b).1 hab) ?_
  intro hk
  simp only [Intent.key, EmbeddingLike.apply_eq_iff_eq, Prod.mk.injEq] at hk
  exact hd (by rw [hk.1, hk.2])

theorem mapM_eq_ok {α β ε : Type} (f : α → Except ε β) (g : α → β) :
    ∀ l : List α, (∀ a ∈ l, f a = .ok (g a)) → l.mapM f = .ok (l.map g)
  | [], _ => rfl
  | a :: l, h => by
    rw [List.mapM_cons, h a (List.mem_cons_self a l),
      mapM_eq_ok f g l fun b hb => h b (List.mem_cons_of_mem a hb)]
    rfl

/-- Raw-intent keys round-trip: for any set of (name, priority) pairs stored under their
`rawIntentName` keys, read back in any order, `listRawIntent` returns exactly those pairs,
sorted by priority and then by name. -/
theorem listRawIntent_rawIntentName (ps : List (String × Int32)) (hps : ps.Nodup)
    (upds : List (List String)) (hupds : upds.Perm (ps.map fun p => [rawIntentName p.1 p.2])) :
    ∃ intents, listRawIntent upds = .ok intents ∧
      (intents.map fun i => (i.intent, i.priority)).Perm ps ∧
      intents.Sorted fun a b => a.priority < b.priority ∨ a.priority = b.priority ∧ a.intent < b.intent := by
  let decode : List String → Intent := fun u => (rawIntentOfPath u).toOption.getD ⟨"", 0⟩
  have hdec : ∀ u ∈ upds, rawIntentOfPath u = .ok (decode u) := fun u hu => by
    obtain ⟨p, -, rfl⟩ := List.mem_map.1 (hupds.subset hu)
    simp only [decode, rawIntentOfPath_rawIntentName]
    rfl
  have hid : ((fun i : Intent => (i.intent, i.priority)) ∘ decode ∘
      fun p : String × Int32 => [rawIntentName p.1 p.2]) = id := by
    funext p
    simp only [Function.comp_apply, decode, rawIntentOfPath_rawIntentName]
    rfl
  have hperm : ((upds.map decode).map fun i => (i.intent, i.priority)).Perm ps := by
    simpa only [List.map_map, hid, List.map_id] using
      (hupds.map decode).map fun i : Intent => (i.intent, i.priority)
  have hperm' := ((List.mergeSort_perm (upds.map decode) fun a b => !intentLess b a).map
    fun i : Intent => (i.intent, i.priority)).trans hperm
  refine ⟨_, ?_, hperm', ?_⟩
  · unfold listRawIntent
    split
    · obtain rfl := List.length_eq_zero.1 ‹_›
      rw [List.map_nil, List.mergeSort_nil]
    · rw [mapM_eq_ok _ _ upds hdec]
      rfl
  · exact (sorted_mergeSort_intentLess _ (hperm.nodup_iff.2 hps)).imp fun h => by
      simpa only [Intent.key, Prod.Lex.lt_iff] using h

theorem listRawIntent_sample :
    let ps : List (String × Int32) := [("a_b", 5), ("__raw_intent__x", -7)]
    ps.Nodup ∧ ∃ intents, listRawIntent (ps.map fun p => [rawIntentName p.1 p.2]).reverse = .ok intents ∧
      (intents.map fun i => (i.intent, i.priority)).Perm ps ∧
      intents.Sorted fun a b => a.priority < b.priority ∨ a.priority = b.priority ∧ a.intent < b.intent :=
  ⟨by decide, listRawIntent_rawIntentName _ (by decide) _ (List.reverse_perm _)⟩

theorem mapM_eq_error_iff {α β ε : Type} (f : α → Except ε β) (e : ε) :
    ∀ l : List α, l.mapM f = .error e ↔
      ∃ pre a post, l = pre ++ a :: post ∧ (∀ b ∈ pre, ∃ c, f b = .ok c) ∧ f a = .error e
  | [] => by rw [List.mapM_nil]; simp [pure, Except.pure]
  | a :: l => by
    constructor
    · intro h
      rw [List.mapM_cons] at h
      cases ha : f a with
      | error e' =>
        rw [ha] at h
        obtain rfl : e' = e := Except.error.inj h
        exact ⟨[], a, l, rfl, by simp, ha⟩
      | ok c =>
        rw [ha] at h
        cases hl : l.mapM f with
        | error e'' =>
          rw [hl] at h
          obtain rfl : e'' = e := Except.error.inj h
          obtain ⟨pre, x, post, rfl, hpre, hx⟩ := (mapM_eq_error_iff f e'' l).mp hl
          exact ⟨a :: pre, x, post, rfl, by simpa [ha] using hpre, hx⟩
        | ok bs =>
          rw [hl] at h
          cases h
    · rintro ⟨_ | ⟨b, pre⟩, x, post, h, hpre, hx⟩
      · obtain ⟨rfl, rfl⟩ := List.cons.inj h
        rw [List.mapM_cons, hx]
        rfl
      · rw [List.cons_append] at h
        obtain ⟨rfl, rfl⟩ := List.cons.inj h
        obtain ⟨c, hc⟩ := hpre a (List.mem_cons_self a pre)
        rw [List.mapM_cons, hc, (mapM_eq_error_iff f e _).mpr
          ⟨pre, x, post, rfl, fun b hb => hpre b (List.mem_cons_of_mem _ hb), hx⟩]
        rfl

theorem rawIntentOfPath_cons_ne_panic (key : String) (rest : List String) (msg : String) :
    rawIntentOfPath (key :: rest) ≠ .error (.panic msg) := by
  simp only [rawIntentOfPath]
  split_ifs
  · simp
  · split <;> simp

theorem rawIntentOfPath_nil : rawIntentOfPath [] = .error (Fault.indexOutOfRange 0 0) := rfl

/-- `listRawIntent` panics, with the index out of range of its guard's error message, exactly when a
key with an empty path is read after keys that all decode; every other key it cannot decode,
without the separator or with a suffix that is not a number, gives an error. -/
theorem listRawIntent_panic_iff (upds : List (List String)) (msg : String) :
    listRawIntent upds = .error (.panic msg) ↔
      ∃ pre post, upds = pre ++ [] :: post ∧ (∀ u ∈ pre, ∃ i, rawIntentOfPath u = .ok i) ∧
        Fault.panic msg = Fault.indexOutOfRange 0 0 := by
  have hm : listRawIntent upds = .error (.panic msg) ↔ upds.mapM rawIntentOfPath = .error (.panic msg) := by
    unfold listRawIntent
    split
    · rename_i h
      rw [List.length_eq_zero.mp h, List.mapM_nil]
      simp [pure, Except.pure]
    · cases upds.mapM rawIntentOfPath <;> simp [bind, Except.bind, pure, Except.pure]
  rw [hm, mapM_eq_error_iff]
  constructor
  · rintro ⟨pre, _ | ⟨key, rest⟩, post, rfl, hpre, hx⟩
    · exact ⟨pre, post, rfl, hpre, by rw [rawIntentOfPath_nil] at hx; exact (Except.error.inj hx).symm⟩
    · exact absurd hx (rawIntentOfPath_cons_ne_panic key rest msg)
  · rintro ⟨pre, post, rfl, hpre, hmsg⟩
    exact ⟨pre, [], post, rfl, hpre, by rw [rawIntentOfPath_nil, hmsg]⟩

end DataServer
