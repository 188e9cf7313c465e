import SoftwareSwitches.Lib.LuaPattern

/-!
# The device arguments of the Snabb programs

`run` of `p2p.lua` picks a driver for each of its two device arguments.  The
argument is parsed by an unanchored pattern, and of the two values the parser
returns `run` keeps the driver only: the nic app always gets the whole argument
as its address.
-/

namespace SoftwareSwitches.Snabb

open SoftwareSwitches.Lib.LuaPattern

inductive Driver where
  | rawSocket
  | virtioNet
  | intel82599
deriving DecidableEq

def addrChar (c : Char) : Bool := c.isAlphanum || c == ':' || c == '.'

def driverPattern : List (Item Char) :=
  [⟨Char.isAlpha, true, true⟩, ⟨(· == ':'), false, false⟩, ⟨addrChar, true, true⟩]

def tap : List Char := "tap".toList

def virtio : List Char := "virtio".toList

def selectNicDriver (arg : List Char) : Driver × List Char :=
  match find driverPattern arg with
  | some [driver, pciaddr] =>
    if driver = tap then (.rawSocket, pciaddr)
    else if driver = virtio then (.virtioNet, pciaddr)
    else (.intel82599, arg)
  | _ => (.intel82599, arg)

structure NicApp where
  driver : Driver
  pciaddr : List Char
deriving DecidableEq

structure Config where
  nic1 : NicApp
  nic2 : NicApp
  link : List Char
deriving DecidableEq

/-- The configuration for the arguments `dogetopt` leaves, `none` if the usage is shown. -/
def run : List (List Char) → Option Config
  | [pciaddr1, pciaddr2] =>
    let driver1 := (selectNicDriver pciaddr1).1
    let driver2 := (selectNicDriver pciaddr2).1
    some
      { nic1 := { driver := driver1, pciaddr := pciaddr1 }
        nic2 := { driver := driver2, pciaddr := pciaddr2 }
        link := "nic1.tx -> nic2.rx".toList }
  | _ => none

/-! ## What the user names -/

def graphic (c : Char) : Bool := '!' ≤ c ∧ c ≤ '~'

/-- The argument is the name of a driver, a colon and a name for it to attach. -/
def Names (driver name arg : List Char) : Prop :=
  name ≠ [] ∧ (∀ c ∈ name, graphic c) ∧ arg = driver ++ ':' :: name

def hexDigit (c : Char) : Bool :=
  c.isDigit || ('a' ≤ c && c ≤ 'f') || ('A' ≤ c && c ≤ 'F')

def pciAddress : List Char → Bool
  | [d₁, d₂, d₃, d₄, ':', b₁, b₂, ':', s₁, s₂, '.', f] =>
    [d₁, d₂, d₃, d₄, b₁, b₂, s₁, s₂, f].all hexDigit
  | _ => false

structure Attached (arg : List Char) (nic : NicApp) : Prop where
  ofTap : ∀ name, Names tap name arg → nic = ⟨.rawSocket, name⟩
  ofVirtio : ∀ name, Names virtio name arg → nic = ⟨.virtioNet, name⟩
  ofPci : pciAddress arg → nic = ⟨.intel82599, arg⟩
  ofOther : ¬ tap ++ [':'] <+: arg → ¬ virtio ++ [':'] <+: arg →
    nic.driver ≠ .rawSocket ∧ nic.driver ≠ .virtioNet

/-! ## What the pattern finds -/

theorem alpha_ne_colon (c : Char) (h : c.isAlpha) : (c == ':') = false := by
  rw [beq_eq_false_iff_ne]
  rintro rfl
  exact absurd h (by decide)

theorem matchHere_driverPattern_iff {s : List Char} {captures : List (List Char)} :
    matchHere driverPattern s = some captures ↔
      ∃ driver c post, s = driver ++ ':' :: c :: post ∧ driver ≠ [] ∧
        (∀ l ∈ driver, l.isAlpha) ∧ addrChar c ∧
        captures = [driver, (c :: post).takeWhile addrChar] := by
  rw [driverPattern, matchHere_many_one alpha_ne_colon]
  constructor
  · intro h
    split_ifs at h with hnil
    have hsplit : s.takeWhile Char.isAlpha ++ s.dropWhile Char.isAlpha = s :=
      List.takeWhile_append_dropWhile
    cases hrest : s.dropWhile Char.isAlpha with
    | nil => simp [hrest, matchHere_one_nil] at h
    | cons colon rest =>
        rw [hrest, matchHere_one_cons] at h
        by_cases hcolon : (colon == ':') = true
        · rw [if_pos hcolon, matchHere_many_last] at h
          split_ifs at h with hclass
          · simp at h
          · cases rest with
            | nil => exact absurd rfl hclass
            | cons c post =>
                have hc : addrChar c := by
                  by_contra hc
                  exact hclass (by simp [hc])
                refine ⟨s.takeWhile Char.isAlpha, c, post, ?_, hnil, ?_, hc, ?_⟩
                · rw [← beq_iff_eq.mp hcolon, ← hrest, hsplit]
                · exact fun l hl => List.mem_takeWhile_imp hl
                · simpa [Item.capture] using h.symm
        · rw [if_neg hcolon] at h
          simp at h
  · rintro ⟨driver, c, post, rfl, hne, halpha, hc, rfl⟩
    have htake : (driver ++ ':' :: c :: post).takeWhile Char.isAlpha = driver := by
      rw [List.takeWhile_append_of_pos halpha]
      simp
    have hdrop : (driver ++ ':' :: c :: post).dropWhile Char.isAlpha = ':' :: c :: post := by
      rw [List.dropWhile_append_of_pos halpha]
      simp
    have hclass : (c :: post).takeWhile addrChar ≠ [] := by simp [hc]
    rw [htake, if_neg hne, hdrop, matchHere_one_cons, if_pos (by decide),
      matchHere_many_last, if_neg hclass]
    rfl

def HasPair (s : List Char) : Prop :=
  ∃ l c, l.isAlpha ∧ addrChar c ∧ [l, ':', c] <:+: s

/-- The argument shows a driver's name to the pattern: a colon and a character of the
class follow it, no letter stands before it, and nothing further left matches. -/
def Exposes (driver arg : List Char) : Prop :=
  ∃ pre c post, arg = pre ++ driver ++ ':' :: c :: post ∧ addrChar c ∧
    (∀ l ∈ pre.getLast?, ¬ l.isAlpha) ∧ ¬ HasPair (pre ++ driver)

section Leftmost

variable {driver : List Char}

theorem colon_notMem (halpha : ∀ l ∈ driver, l.isAlpha) : ':' ∉ driver := by
  intro hmem
  exact absurd (halpha ':' hmem) (by decide)

theorem HasPair.exists_split {pre : List Char} (halpha : ∀ l ∈ driver, l.isAlpha)
    (h : HasPair (pre ++ driver)) :
    ∃ before l c between rest, l.isAlpha ∧ addrChar c ∧
      pre = before ++ l :: ':' :: between ∧ between ++ driver = c :: rest := by
  obtain ⟨l, c, hl, hc, before, rest, heq⟩ := h
  have heq' : (before ++ [l, ':']) ++ c :: rest = pre ++ driver := by
    rw [← heq]
    simp
  rcases List.append_eq_append_iff.mp heq' with ⟨between, hpre, hrest⟩ | ⟨letters, hbefore, hdriver⟩
  · exact ⟨before, l, c, between, rest, hl, hc, by simp [hpre], hrest.symm⟩
  · rcases List.eq_nil_or_concat letters with rfl | ⟨letters, last, rfl⟩
    · refine ⟨before, l, c, [], rest, hl, hc, ?_, hdriver⟩
      simpa using hbefore.symm
    · -- Else the colon would be one of the letters of the name.
      have hlast : ':' = last := by
        have h := congrArg List.getLast? hbefore
        simpa using h
      have hmem : ':' ∈ driver := by
        rw [hdriver, hlast]
        simp
      exact absurd hmem (colon_notMem halpha)

theorem exists_earlier_match (halpha : ∀ l ∈ driver, l.isAlpha) {pre : List Char} {c : Char}
    (hc : addrChar c) (post : List Char)
    (h : (∃ l ∈ pre.getLast?, l.isAlpha) ∨ HasPair (pre ++ driver)) :
    ∃ before after, pre = before ++ after ∧ after ≠ [] ∧
      matchHere driverPattern (after ++ (driver ++ ':' :: c :: post)) ≠ none := by
  simp only [Option.ne_none_iff_exists', matchHere_driverPattern_iff]
  rcases h with ⟨l, hlast, hl⟩ | hpair
  · obtain ⟨before, rfl⟩ := List.getLast?_eq_some_iff.mp hlast
    refine ⟨before, [l], rfl, by simp, _, l :: driver, c, post, by simp, by simp, ?_, hc, rfl⟩
    intro l' hl'
    rcases List.mem_cons.mp hl' with rfl | hl'
    · exact hl
    · exact halpha l' hl'
  · obtain ⟨before, l, c', between, rest, hl, hc', rfl, hrest⟩ := hpair.exists_split halpha
    refine ⟨before, l :: ':' :: between, rfl, by simp, _, [l], c',
      rest ++ ':' :: c :: post, ?_, by simp, by simpa using hl, hc', rfl⟩
    calc l :: ':' :: between ++ (driver ++ ':' :: c :: post)
        = l :: ':' :: ((between ++ driver) ++ ':' :: c :: post) := by simp
      _ = [l] ++ ':' :: c' :: (rest ++ ':' :: c :: post) := by simp [hrest]

theorem letter_or_pair_of_match (hne : driver ≠ []) {before after post : List Char}
    {c : Char} (hafter : after ≠ [])
    (hmatch : matchHere driverPattern (after ++ (driver ++ ':' :: c :: post)) ≠ none) :
    (∃ l ∈ (before ++ after).getLast?, l.isAlpha) ∨ HasPair (before ++ after ++ driver) := by
  simp only [ne_eq, Option.ne_none_iff_exists', matchHere_driverPattern_iff] at hmatch
  obtain ⟨-, found, c', post', heq, hfound, halpha, hc', -⟩ := hmatch
  have hletter : after <+: found → ∃ l ∈ (before ++ after).getLast?, l.isAlpha := by
    intro hinitial
    refine ⟨after.getLast hafter, ?_, halpha _ (hinitial.subset (List.getLast_mem hafter))⟩
    rw [List.getLast?_append, List.getLast?_eq_some_getLast hafter]
    rfl
  rcases List.append_eq_append_iff.mp heq with ⟨rest, hrest, -⟩ | ⟨rest, hrest, hcolon⟩
  · exact Or.inl (hletter ⟨rest, hrest.symm⟩)
  · cases rest with
    | nil => exact Or.inl (hletter ⟨[], by simpa using hrest⟩)
    | cons colon rest =>
        -- The colon found stands before the name, so the pair ends in it at the latest.
        obtain ⟨rfl, hafter'⟩ := List.cons.inj hcolon
        obtain ⟨w, hw⟩ : ∃ w, rest ++ driver = c' :: w := by
          cases rest with
          | nil =>
              obtain ⟨head, tail, rfl⟩ := List.exists_cons_of_ne_nil hne
              exact ⟨tail, by simp at hafter'; simp [hafter'.1]⟩
          | cons head tail => exact ⟨tail ++ driver, by simp at hafter'; simp [hafter'.1]⟩
        right
        refine ⟨found.getLast hfound, c', halpha _ (List.getLast_mem hfound), hc',
          before ++ found.dropLast, w, ?_⟩
        calc before ++ found.dropLast ++ [found.getLast hfound, ':', c'] ++ w
            = before ++ (found.dropLast ++ [found.getLast hfound]) ++ ':' :: (c' :: w) := by simp
          _ = before ++ found ++ ':' :: (rest ++ driver) := by
              rw [List.dropLast_concat_getLast hfound, hw]
          _ = before ++ after ++ driver := by simp [hrest]

theorem captures_iff_exposes (hne : driver ≠ []) (halpha : ∀ l ∈ driver, l.isAlpha)
    (arg : List Char) :
    (∃ pciaddr, find driverPattern arg = some [driver, pciaddr]) ↔ Exposes driver arg := by
  simp only [find_eq_some_iff, matchHere_driverPattern_iff]
  constructor
  · rintro ⟨pciaddr, pre, rest, rfl, ⟨driver', c, post, rfl, -, -, hc, hcaptures⟩, hfirst⟩
    obtain rfl : driver = driver' := (List.cons.inj hcaptures).1
    have hearlier : ¬ ((∃ l ∈ pre.getLast?, l.isAlpha) ∨ HasPair (pre ++ driver)) := by
      intro h
      obtain ⟨before, after, hpre, hafter, hmatch⟩ := exists_earlier_match halpha hc post h
      exact hmatch (hfirst before after hpre hafter)
    obtain ⟨hletter, hpair⟩ := not_or.mp hearlier
    exact ⟨pre, c, post, by simp, hc, fun l hl hl' => hletter ⟨l, hl, hl'⟩, hpair⟩
  · rintro ⟨pre, c, post, rfl, hc, hletter, hpair⟩
    refine ⟨_, pre, driver ++ ':' :: c :: post, by simp,
      ⟨driver, c, post, rfl, hne, halpha, hc, rfl⟩, ?_⟩
    rintro before after rfl hafter
    by_contra hmatch
    rcases letter_or_pair_of_match hne hafter hmatch with ⟨l, hl, hl'⟩ | h
    · exact hletter l hl hl'
    · exact hpair h

end Leftmost

/-! ## Which driver is selected -/

theorem tap_ne_virtio : tap ≠ virtio := by decide

theorem isAlpha_of_mem_tap : ∀ l ∈ tap, l.isAlpha :=
  List.all_eq_true.mp (by decide)

theorem isAlpha_of_mem_virtio : ∀ l ∈ virtio, l.isAlpha :=
  List.all_eq_true.mp (by decide)

def namedDriver (name : List Char) : Driver :=
  if name = tap then .rawSocket else if name = virtio then .virtioNet else .intel82599

theorem selectNicDriver_eq_iff {driver : Driver} {name : List Char}
    (hdriver : driver ≠ .intel82599) (hname : ∀ other, namedDriver other = driver ↔ other = name)
    (hne : name ≠ []) (halpha : ∀ l ∈ name, l.isAlpha) (arg : List Char) :
    (selectNicDriver arg).1 = driver ↔ Exposes name arg := by
  rw [← captures_iff_exposes hne halpha]
  unfold selectNicDriver
  split
  case h_1 captured pciaddr hfind =>
    have hfst : (if captured = tap then (Driver.rawSocket, pciaddr)
        else if captured = virtio then (Driver.virtioNet, pciaddr)
        else (Driver.intel82599, arg)).1 = namedDriver captured := by
      unfold namedDriver
      split_ifs <;> rfl
    rw [hfst, hname]
    simp [hfind]
  case h_2 hother =>
    constructor
    · intro h
      exact absurd h.symm hdriver
    · rintro ⟨pciaddr, hfind⟩
      exact absurd hfind (hother name pciaddr)

theorem selectNicDriver_eq_rawSocket_iff (arg : List Char) :
    (selectNicDriver arg).1 = .rawSocket ↔ Exposes tap arg := by
  apply selectNicDriver_eq_iff (by decide) _ (by decide) isAlpha_of_mem_tap
  intro other
  unfold namedDriver
  split_ifs with htap hvirtio <;> simp [htap]

theorem selectNicDriver_eq_virtioNet_iff (arg : List Char) :
    (selectNicDriver arg).1 = .virtioNet ↔ Exposes virtio arg := by
  apply selectNicDriver_eq_iff (by decide) _ (by decide) isAlpha_of_mem_virtio
  intro other
  unfold namedDriver
  split_ifs with htap hvirtio
  · simp [htap, tap_ne_virtio]
  · simp [hvirtio]
  · simp [hvirtio]

/-- The argument itself is what the nic app has to get: it names nothing for the first
two drivers, and shows neither of their names unless it begins with one. -/
structure WholeAddress (arg : List Char) : Prop where
  notTap : ∀ name, ¬ Names tap name arg
  notVirtio : ∀ name, ¬ Names virtio name arg
  notExposed : ¬ tap ++ [':'] <+: arg → ¬ virtio ++ [':'] <+: arg →
    ¬ Exposes tap arg ∧ ¬ Exposes virtio arg

theorem Names.ne_arg {driver name arg : List Char} (h : Names driver name arg) :
    arg ≠ name := by
  intro heq
  have hlength := congrArg List.length h.2.2
  rw [heq, List.length_append, List.length_cons] at hlength
  omega

theorem hexDigit_of_pciAddress {arg : List Char} (h : pciAddress arg) {c : Char}
    (hc : c ∈ arg) : hexDigit c ∨ c = ':' ∨ c = '.' := by
  unfold pciAddress at h
  split at h
  · simp only [List.all_cons, List.all_nil, Bool.and_true, Bool.and_eq_true] at h
    simp only [List.mem_cons, List.not_mem_nil, or_false] at hc
    grind
  · cases h

theorem notMem_of_pciAddress {arg : List Char} (h : pciAddress arg) :
    't' ∉ arg ∧ 'v' ∉ arg :=
  ⟨fun hmem => absurd (hexDigit_of_pciAddress h hmem) (by decide),
    fun hmem => absurd (hexDigit_of_pciAddress h hmem) (by decide)⟩

theorem t_mem_tap : 't' ∈ tap := by decide

theorem v_mem_virtio : 'v' ∈ virtio := by decide

theorem not_exposes_of_pciAddress {arg : List Char} (h : pciAddress arg) :
    ¬ Exposes tap arg ∧ ¬ Exposes virtio arg := by
  obtain ⟨ht, hv⟩ := notMem_of_pciAddress h
  constructor
  · rintro ⟨pre, c, post, rfl, -⟩
    exact ht (by simp [t_mem_tap])
  · rintro ⟨pre, c, post, rfl, -⟩
    exact hv (by simp [v_mem_virtio])

theorem wholeAddress_of_pciAddress {arg : List Char} (h : pciAddress arg) :
    WholeAddress arg := by
  obtain ⟨ht, hv⟩ := notMem_of_pciAddress h
  constructor
  case notTap =>
    rintro name ⟨-, -, rfl⟩
    exact ht (by simp [t_mem_tap])
  case notVirtio =>
    rintro name ⟨-, -, rfl⟩
    exact hv (by simp [v_mem_virtio])
  case notExposed => exact fun _ _ => not_exposes_of_pciAddress h

theorem attached_iff (arg : List Char) :
    Attached arg ⟨(selectNicDriver arg).1, arg⟩ ↔ WholeAddress arg := by
  constructor
  · intro hattached
    constructor
    case notTap =>
      intro name hname
      exact hname.ne_arg (congrArg NicApp.pciaddr (hattached.ofTap name hname))
    case notVirtio =>
      intro name hname
      exact hname.ne_arg (congrArg NicApp.pciaddr (hattached.ofVirtio name hname))
    case notExposed =>
      intro htap hvirtio
      obtain ⟨hraw, hnet⟩ := hattached.ofOther htap hvirtio
      rw [← selectNicDriver_eq_rawSocket_iff, ← selectNicDriver_eq_virtioNet_iff]
      exact ⟨hraw, hnet⟩
  · intro hwhole
    have hother : ¬ tap ++ [':'] <+: arg → ¬ virtio ++ [':'] <+: arg →
        (selectNicDriver arg).1 ≠ .rawSocket ∧ (selectNicDriver arg).1 ≠ .virtioNet := by
      intro htap hvirtio
      rw [ne_eq, ne_eq, selectNicDriver_eq_rawSocket_iff, selectNicDriver_eq_virtioNet_iff]
      exact hwhole.notExposed htap hvirtio
    constructor
    case ofTap => exact fun name hname => absurd hname (hwhole.notTap name)
    case ofVirtio => exact fun name hname => absurd hname (hwhole.notVirtio name)
    case ofPci =>
      intro hpci
      obtain ⟨htap, hvirtio⟩ := not_exposes_of_pciAddress hpci
      rw [← selectNicDriver_eq_rawSocket_iff] at htap
      rw [← selectNicDriver_eq_virtioNet_iff] at hvirtio
      cases hdriver : (selectNicDriver arg).1 with
      | rawSocket => exact absurd hdriver htap
      | virtioNet => exact absurd hdriver hvirtio
      | intel82599 => rfl
    case ofOther => exact hother

/-- A program attaches the devices its two arguments name exactly if both are to be taken
whole. -/
theorem run_attaches_iff (arg₁ arg₂ : List Char) :
    (∃ c, run [arg₁, arg₂] = some c ∧ Attached arg₁ c.nic1 ∧ Attached arg₂ c.nic2) ↔
      WholeAddress arg₁ ∧ WholeAddress arg₂ := by
  rw [← attached_iff, ← attached_iff]
  constructor
  · rintro ⟨c, hrun, hnic1, hnic2⟩
    cases hrun
    exact ⟨hnic1, hnic2⟩
  · rintro ⟨hnic1, hnic2⟩
    exact ⟨_, rfl, hnic1, hnic2⟩

/-- `tap:eth0` is attached as `tap:eth0`, and `0tap:eth0` gets the raw socket. -/
theorem not_run_attaches_tap :
    (¬ ∃ c, run ["tap:eth0".toList, "0000:0b:00.1".toList] = some c ∧
      Attached "tap:eth0".toList c.nic1 ∧ Attached "0000:0b:00.1".toList c.nic2) ∧
    ¬ ∃ c, run ["0tap:eth0".toList, "0000:0b:00.1".toList] = some c ∧
      Attached "0tap:eth0".toList c.nic1 ∧ Attached "0000:0b:00.1".toList c.nic2 := by
  constructor
  · rintro ⟨c, hrun, hnic, -⟩
    have hgraphic : ∀ c ∈ "eth0".toList, graphic c := List.all_eq_true.mp (by decide)
    have hnamed := hnic.ofTap "eth0".toList ⟨by decide, hgraphic, by decide⟩
    cases hrun
    exact absurd hnamed (by decide)
  · rintro ⟨c, hrun, hnic, -⟩
    have hdriver := (hnic.ofOther (by decide) (by decide)).1
    cases hrun
    exact absurd hdriver (by decide)

end SoftwareSwitches.Snabb
