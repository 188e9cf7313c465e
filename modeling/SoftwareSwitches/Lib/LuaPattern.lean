import Mathlib.Data.List.TakeWhile

/-!
# Lua patterns

A pattern is a list of items, each of which accepts one character or, as far as
possible, one or more, and may be a capture.  `find` is `string.match` without an
anchor: the leftmost position from which the items match, and from there the
longest repetition that lets the rest of the pattern match.
-/

namespace SoftwareSwitches.Lib.LuaPattern

variable {α β : Type*}

structure Item (α : Type*) where
  accepts : α → Bool
  many : Bool
  captured : Bool

def Item.capture (item : Item α) (text : List α) (captures : List (List α)) :
    List (List α) :=
  if item.captured then text :: captures else captures

/-- The first success of `attempt` at `n`, `n - 1`, ..., `1`. -/
def maxExpand (attempt : ℕ → Option β) : ℕ → Option β
  | 0 => none
  | n + 1 =>
    match attempt (n + 1) with
    | some b => some b
    | none => maxExpand attempt n

def matchHere : List (Item α) → List α → Option (List (List α))
  | [], _ => some []
  | item :: items, s =>
    let reach := if item.many then s else s.take 1
    maxExpand (fun n => (matchHere items (s.drop n)).map (item.capture (s.take n)))
      (reach.takeWhile item.accepts).length

def find (items : List (Item α)) : List α → Option (List (List α))
  | [] => matchHere items []
  | c :: s =>
    match matchHere items (c :: s) with
    | some captures => some captures
    | none => find items s

/-! ## How far an item reaches -/

theorem maxExpand_of_isSome {attempt : ℕ → Option β} {n : ℕ} (hpos : 0 < n)
    (h : (attempt n).isSome) : maxExpand attempt n = attempt n := by
  obtain ⟨b, hb⟩ := Option.isSome_iff_exists.mp h
  cases n with
  | zero => exact absurd hpos (lt_irrefl 0)
  | succ n => rw [maxExpand, hb]

theorem maxExpand_of_longest {attempt : ℕ → Option β} {n : ℕ} (hpos : 0 < n)
    (h : ∀ k, 0 < k → k < n → attempt k = none) : maxExpand attempt n = attempt n := by
  have hnone : ∀ k, k < n → maxExpand attempt k = none := by
    intro k
    induction k with
    | zero => exact fun _ => rfl
    | succ k ih =>
        intro hk
        rw [maxExpand, h (k + 1) (Nat.succ_pos k) hk]
        exact ih (by omega)
  cases n with
  | zero => exact absurd hpos (lt_irrefl 0)
  | succ n =>
      rw [maxExpand]
      cases hattempt : attempt (n + 1) with
      | none => exact hnone n (by omega)
      | some b => rfl

section Items

variable {p q : α → Bool} {captured : Bool} {items : List (Item α)} {s : List α}

theorem matchHere_one_nil : matchHere (⟨q, false, captured⟩ :: items) [] = none := by
  simp [matchHere, maxExpand]

theorem matchHere_one_cons (c : α) : matchHere (⟨q, false, captured⟩ :: items) (c :: s) =
    if q c then (matchHere items s).map (Item.capture ⟨q, false, captured⟩ [c]) else none := by
  cases hq : q c with
  | false => simp [matchHere, maxExpand, hq]
  | true =>
      simp only [matchHere, Bool.false_eq_true, if_false, List.take_succ_cons, List.take_zero,
        List.takeWhile_cons, hq, if_true, List.takeWhile_nil, List.length_singleton]
      rw [maxExpand_of_longest Nat.one_pos fun k hk hk' => absurd hk' (by omega)]
      simp

theorem matchHere_many_last : matchHere [⟨p, true, captured⟩] s =
    if s.takeWhile p = [] then none
    else some (Item.capture ⟨p, true, captured⟩ (s.takeWhile p) []) := by
  have htake : s.take (s.takeWhile p).length = s.takeWhile p :=
    (List.prefix_iff_eq_take.mp (List.takeWhile_prefix p)).symm
  split_ifs with hnil
  · simp [matchHere, hnil, maxExpand]
  · simp only [matchHere, if_true]
    rw [maxExpand_of_isSome (List.length_pos_iff.mpr hnil) (by simp), htake]
    rfl

/-- A repetition before a character it cannot take itself never gives anything back. -/
theorem matchHere_many_one (hdisjoint : ∀ c, p c → q c = false) {captured' : Bool} :
    matchHere (⟨p, true, captured⟩ :: ⟨q, false, captured'⟩ :: items) s =
      if s.takeWhile p = [] then none
      else (matchHere (⟨q, false, captured'⟩ :: items) (s.dropWhile p)).map
        (Item.capture ⟨p, true, captured⟩ (s.takeWhile p)) := by
  have htake : s.take (s.takeWhile p).length = s.takeWhile p :=
    (List.prefix_iff_eq_take.mp (List.takeWhile_prefix p)).symm
  have hdrop : s.drop (s.takeWhile p).length = s.dropWhile p := by
    have hsplit : s.takeWhile p ++ s.dropWhile p = s := List.takeWhile_append_dropWhile
    have h := congrArg (List.drop (s.takeWhile p).length) hsplit
    rwa [List.drop_left, eq_comm] at h
  split_ifs with hnil
  · simp [matchHere, hnil, maxExpand]
  · rw [matchHere]
    simp only [if_true]
    rw [maxExpand_of_longest (List.length_pos_iff.mpr hnil), htake, hdrop]
    intro k _ hk
    have hlt : k < s.length := hk.trans_le (List.takeWhile_prefix p).length_le
    have hpk : p s[k] := by
      rw [← (List.takeWhile_prefix p).getElem hk]
      exact List.mem_takeWhile_imp (List.getElem_mem hk)
    rw [List.drop_eq_getElem_cons hlt, matchHere_one_cons, hdisjoint _ hpk]
    rfl

end Items

/-! ## The leftmost match -/

theorem find_eq_some_iff {items : List (Item α)} {s : List α} {captures : List (List α)} :
    find items s = some captures ↔
      ∃ pre rest, s = pre ++ rest ∧ matchHere items rest = some captures ∧
        ∀ before after, pre = before ++ after → after ≠ [] →
          matchHere items (after ++ rest) = none := by
  induction s with
  | nil =>
      rw [find]
      constructor
      · intro h
        exact ⟨[], [], rfl, h, by simp⟩
      · rintro ⟨pre, rest, hs, h, -⟩
        rw [(List.append_eq_nil_iff.mp hs.symm).2] at h
        exact h
  | cons c s ih =>
      rw [find]
      cases hhere : matchHere items (c :: s) with
      | some captures' =>
          constructor
          · rintro h
            exact ⟨[], c :: s, rfl, hhere.trans h, by simp⟩
          · rintro ⟨pre, rest, hs, h, hfirst⟩
            cases pre with
            | nil =>
                rw [List.nil_append] at hs
                rw [← h, ← hs, hhere]
            | cons c' pre =>
                have hnone := hfirst [] (c' :: pre) rfl (by simp)
                rw [← hs, hhere] at hnone
                exact absurd hnone (by simp)
      | none =>
          change find items s = some captures ↔ _
          rw [ih]
          constructor
          · rintro ⟨pre, rest, rfl, h, hfirst⟩
            refine ⟨c :: pre, rest, rfl, h, ?_⟩
            intro before after hpre hafter
            cases before with
            | nil =>
                rw [List.nil_append] at hpre
                rw [← hpre]
                exact hhere
            | cons c' before => exact hfirst before after (List.cons.inj hpre).2 hafter
          · rintro ⟨pre, rest, hs, h, hfirst⟩
            cases pre with
            | nil =>
                rw [List.nil_append] at hs
                rw [← hs, hhere] at h
                exact absurd h (by simp)
            | cons c' pre =>
                obtain ⟨rfl, rfl⟩ := List.cons.inj hs
                refine ⟨pre, rest, rfl, h, ?_⟩
                intro before after hpre hafter
                exact hfirst (c :: before) after (by rw [hpre, List.cons_append]) hafter

end SoftwareSwitches.Lib.LuaPattern
