import SoftwareSwitches.Histogram.Binary64
import Mathlib.Data.List.Infix
import Mathlib.Logic.Function.Basic

/-!
# The file loop of analyze_histogram.py

The script goes through the directory listing and, for every selected file `X`,
opens `X_parsed` for writing before it reads the first row of `X`.  An exception
ends the run at once, with the files written so far and an empty `X_parsed`.
-/

namespace SoftwareSwitches.Histogram

abbrev Name := List Char

abbrev Text := List Char

abbrev Directory := Name → Option Text

/-- The names of a directory in the order `listdir` returns them. -/
structure Listing (d : Directory) where
  names : List Name
  nodup : names.Nodup
  complete : ∀ name, name ∈ names ↔ (d name).isSome

def dataMark : Name := ".DATA".toList

def parsedMark : Name := "_parsed".toList

def selected (file : Name) : Bool := dataMark <:+: file ∧ ¬ parsedMark <:+: file

def parsed (file : Name) : Name := file ++ parsedMark

def readlines (content : Text) : List Line :=
  let parts := content.splitOn '\n'
  if parts.getLast? = some [] then parts.dropLast else parts

variable {K : Type*}

def rowText (P : Python K) (bin : K × ℤ) : Text :=
  P.str bin.1 ++ ", ".toList ++ (Int.repr bin.2).toList ++ "\n".toList

/-- There is a row, and every row is a number, a comma and an integer. -/
def wellFormed (P : Python K) (content : Text) : Bool :=
  (readlines content).tail ≠ [] ∧
    ∀ l ∈ (readlines content).tail, (parseRow P l).toOption.isSome

theorem exists_mapM_of_forall_isSome (P : Python K) {lines : List Line}
    (h : ∀ l ∈ lines, (parseRow P l).toOption.isSome) :
    ∃ rows, lines.mapM (parseRow P) = .ok rows ∧ rows.length = lines.length := by
  induction lines with
  | nil => exact ⟨[], rfl, rfl⟩
  | cons l lines ih =>
      obtain ⟨rows, hrows, hlength⟩ := ih fun l' hl' => h l' (List.mem_cons_of_mem l hl')
      have hl := h l (by simp)
      cases hrow : parseRow P l with
      | error e => simp [hrow, Except.toOption] at hl
      | ok row =>
          refine ⟨row :: rows, ?_, by simp [hlength]⟩
          rw [List.mapM_cons, hrow, hrows]
          rfl

def malformed (P : Python K) (d : Directory) (file : Name) : Bool :=
  selected file && (d file).any fun content => !wellFormed P content

def firstMalformed (P : Python K) (d : Directory) (files : List Name) : Option Name :=
  files.find? (malformed P d)

theorem firstMalformed_cons_of_pos {P : Python K} {d : Directory} {file : Name}
    (h : malformed P d file) {files : List Name} :
    firstMalformed P d (file :: files) = some file :=
  List.find?_cons_of_pos h

theorem firstMalformed_cons_of_not {P : Python K} {d : Directory} {file : Name}
    (h : ¬ malformed P d file) {files : List Name} :
    firstMalformed P d (file :: files) = firstMalformed P d files :=
  List.find?_cons_of_neg h

theorem firstMalformed_congr (P : Python K) {d d' : Directory} (files : List Name)
    (h : ∀ file, selected file → d' file = d file) :
    firstMalformed P d' files = firstMalformed P d files := by
  have hmalformed : malformed P d' = malformed P d := by
    funext file
    by_cases hselected : selected file
    · simp [malformed, h file hselected]
    · simp [malformed, hselected]
  rw [firstMalformed, hmalformed, firstMalformed]

variable [LinearOrder K]

def rebinText (P : Python K) (content : Text) : Except PyError Text :=
  match rebin P (readlines content) with
  | .error e => .error e
  | .ok bins => .ok (bins.flatMap (rowText P))

/-- The body of the file loop: the directory after it and the exception, if any. -/
def analyze (P : Python K) (d : Directory) (file : Name) : Directory × Option PyError :=
  match d file with
  | none => (d, some .ioError)
  | some _ =>
    let opened := Function.update d (parsed file) (some [])
    match opened file with
    | none => (opened, some .ioError)
    | some content =>
      match rebinText P content with
      | .error e => (opened, some e)
      | .ok text => (Function.update opened (parsed file) (some text), none)

def fileLoop (P : Python K) : List Name → Directory → Directory × Option PyError
  | [], d => (d, none)
  | file :: files, d =>
    if selected file then
      match analyze P d file with
      | (d', some e) => (d', some e)
      | (d', none) => fileLoop P files d'
    else fileLoop P files d

def run (P : Python K) {d : Directory} (listing : Listing d) : Directory × Option PyError :=
  fileLoop P listing.names d

/-! ## Which files fail -/

theorem rowLoop_error (P : Python K) {lines : List Line}
    (h : ¬ ∀ l ∈ lines, (parseRow P l).toOption.isSome) (st : RowState K) :
    ∃ e, rowLoop P st lines = .error e := by
  induction lines generalizing st with
  | nil => simp at h
  | cons l lines ih =>
      cases hrow : parseRow P l with
      | error e => exact ⟨e, by rw [rowLoop, hrow]⟩
      | ok row =>
          have hrest : ¬ ∀ l ∈ lines, (parseRow P l).toOption.isSome := by
            intro hall
            apply h
            intro l' hl'
            rcases List.mem_cons.mp hl' with rfl | hl'
            · simp [hrow, Except.toOption]
            · exact hall l' hl'
          obtain ⟨e, he⟩ := ih hrest (rowStep P st row)
          exact ⟨e, by rw [rowLoop, hrow]; exact he⟩

theorem rebinText_ok_iff (P : Python K) (content : Text) :
    (∃ text, rebinText P content = .ok text) ↔ wellFormed P content := by
  simp only [wellFormed, decide_eq_true_eq]
  constructor
  · rintro ⟨text, htext⟩
    constructor
    · intro hnil
      simp only [rebinText, rebin, hnil, rowLoop] at htext
      cases htext
    · by_contra hrows
      obtain ⟨e, he⟩ := rowLoop_error P hrows (RowState.init P)
      simp only [rebinText, rebin, he] at htext
      cases htext
  · rintro ⟨hne, hrows⟩
    obtain ⟨rows, hparse, hlength⟩ := exists_mapM_of_forall_isSome P hrows
    have hrows' : rows ≠ [] := by
      rintro rfl
      exact hne (List.length_eq_zero_iff.mp hlength.symm)
    cases hlines : readlines content with
    | nil => simp [hlines] at hne
    | cons first lines =>
        rw [hlines, List.tail_cons] at hparse
        simp only [rebinText, hlines, rebin_eq_binning P first hparse,
          binning_fill_eq P hrows']
        exact ⟨_, rfl⟩

theorem rebinText_error_of_not_wellFormed (P : Python K) {content : Text}
    (h : ¬ wellFormed P content) : ∃ e, rebinText P content = .error e := by
  cases htext : rebinText P content with
  | error e => exact ⟨e, rfl⟩
  | ok text => exact absurd ((rebinText_ok_iff P content).mp ⟨text, htext⟩) h

/-! ## What a run leaves behind -/

/-- Every `X_parsed` is as before or complete, and no other file has changed. -/
def Undamaged (P : Python K) (d d' : Directory) : Prop :=
  (∀ file, selected file → (d file).isSome → d' (parsed file) = d (parsed file) ∨
    ∃ content text, d file = some content ∧ rebinText P content = .ok text ∧
      d' (parsed file) = some text) ∧
  ∀ name, (∀ file, selected file → (d file).isSome → name ≠ parsed file) →
    d' name = d name

theorem not_selected_parsed (file : Name) : ¬ selected (parsed file) := by
  intro h
  simp only [selected, decide_eq_true_eq] at h
  exact h.2 ⟨file, [], by simp [parsed]⟩

theorem ne_parsed_of_selected {file other : Name} (h : selected file) :
    file ≠ parsed other := by
  rintro rfl
  exact not_selected_parsed other h

theorem update_parsed_of_selected (d : Directory) (other : Name) (text : Option Text)
    {file : Name} (h : selected file) :
    Function.update d (parsed other) text file = d file :=
  Function.update_of_ne (ne_parsed_of_selected h) _ _

theorem parsed_injective : Function.Injective parsed := fun _ _ h =>
  List.append_cancel_right h

section Effect

variable {P : Python K} {d : Directory} {file : Name} {content : Text}

theorem analyze_of_wellFormed (hselected : selected file) (hfile : d file = some content)
    {text : Text} (htext : rebinText P content = .ok text) :
    analyze P d file = (Function.update d (parsed file) (some text), none) := by
  have hopened : Function.update d (parsed file) (some []) file = some content := by
    rw [update_parsed_of_selected d file _ hselected, hfile]
  simp only [analyze, hfile, hopened, htext, Function.update_idem]

theorem analyze_of_malformed (hselected : selected file) (hfile : d file = some content)
    {e : PyError} (herror : rebinText P content = .error e) :
    analyze P d file = (Function.update d (parsed file) (some []), some e) := by
  have hopened : Function.update d (parsed file) (some []) file = some content := by
    rw [update_parsed_of_selected d file _ hselected, hfile]
  simp only [analyze, hfile, hopened, herror]

theorem fileLoop_cons_ok (hselected : selected file) (hfile : d file = some content)
    {text : Text} (htext : rebinText P content = .ok text) (files : List Name) :
    fileLoop P (file :: files) d =
      fileLoop P files (Function.update d (parsed file) (some text)) := by
  rw [fileLoop, if_pos hselected, analyze_of_wellFormed hselected hfile htext]

theorem fileLoop_cons_error (hselected : selected file) (hfile : d file = some content)
    {e : PyError} (herror : rebinText P content = .error e) (files : List Name) :
    fileLoop P (file :: files) d =
      (Function.update d (parsed file) (some []), some e) := by
  rw [fileLoop, if_pos hselected, analyze_of_malformed hselected hfile herror]

theorem fileLoop_cons_skip (hselected : ¬ selected file) (files : List Name) :
    fileLoop P (file :: files) d = fileLoop P files d := by
  rw [fileLoop, if_neg hselected]

end Effect

theorem fileLoop_frame (P : Python K) (files : List Name) (d : Directory) {name : Name}
    (hname : ∀ file ∈ files, selected file → name ≠ parsed file) :
    (fileLoop P files d).1 name = d name := by
  induction files generalizing d with
  | nil => rfl
  | cons file files ih =>
      have hrest : ∀ other ∈ files, selected other → name ≠ parsed other :=
        fun other hother => hname other (List.mem_cons_of_mem file hother)
      by_cases hselected : selected file
      · have hne := hname file (by simp) hselected
        cases hcontent : d file with
        | none => simp [fileLoop, hselected, analyze, hcontent]
        | some content =>
            cases htext : rebinText P content with
            | error e =>
                rw [fileLoop_cons_error hselected hcontent htext]
                exact Function.update_of_ne hne _ _
            | ok text =>
                rw [fileLoop_cons_ok hselected hcontent htext, ih _ hrest,
                  Function.update_of_ne hne]
      · rw [fileLoop_cons_skip hselected, ih d hrest]

theorem fileLoop_kept (P : Python K) {file : Name} {files : List Name} (h : file ∉ files)
    (d : Directory) : (fileLoop P files d).1 (parsed file) = d (parsed file) := by
  apply fileLoop_frame P files d
  intro other hother _ heq
  exact h (parsed_injective heq ▸ hother)

/-- The outcome for the listed files: the one the run aborts on is emptied, every
other is untouched or complete. -/
theorem fileLoop_outcome (P : Python K) {files : List Name} {d : Directory}
    (hnodup : files.Nodup) (hexist : ∀ file ∈ files, (d file).isSome) :
    ∀ file ∈ files, selected file →
      (firstMalformed P d files = some file → (fileLoop P files d).1 (parsed file) = some []) ∧
      (firstMalformed P d files ≠ some file →
        (fileLoop P files d).1 (parsed file) = d (parsed file) ∨
        ∃ content text, d file = some content ∧ rebinText P content = .ok text ∧
          (fileLoop P files d).1 (parsed file) = some text) := by
  induction files generalizing d with
  | nil => simp
  | cons head files ih =>
      obtain ⟨hhead, hnodup'⟩ := List.nodup_cons.mp hnodup
      obtain ⟨content, hcontent⟩ := Option.isSome_iff_exists.mp (hexist head (by simp))
      have hexist' : ∀ file ∈ files, (d file).isSome :=
        fun file hfile => hexist file (List.mem_cons_of_mem head hfile)
      have hother : ∀ file ∈ files, parsed file ≠ parsed head := by
        intro file hfile h
        exact hhead (parsed_injective h ▸ hfile)
      intro file hfile hfileSelected
      by_cases hselected : selected head
      · by_cases hwell : wellFormed P content
        · -- The run goes on with `head_parsed` complete.
          obtain ⟨text, htext⟩ := (rebinText_ok_iff P content).mpr hwell
          have hskip : ¬ malformed P d head := by simp [malformed, hcontent, hwell]
          rw [fileLoop_cons_ok hselected hcontent htext, firstMalformed_cons_of_not hskip]
          rcases List.mem_cons.mp hfile with rfl | hfile
          · have hkept : (fileLoop P files (Function.update d (parsed file) (some text))).1
                (parsed file) = some text := by
              rw [fileLoop_kept P hhead, Function.update_self]
            refine ⟨?_, fun _ => Or.inr ⟨content, text, hcontent, htext, hkept⟩⟩
            intro hfirst
            exact absurd (List.find?_some hfirst) hskip
          · have hsame : ∀ other, selected other →
                Function.update d (parsed head) (some text) other = d other :=
              fun other h => update_parsed_of_selected d head _ h
            have houtcome := ih (d := Function.update d (parsed head) (some text)) hnodup'
              (by
                intro other hmem
                by_cases heq : other = parsed head
                · simp [heq]
                · rw [Function.update_of_ne heq]
                  exact hexist' other hmem) file hfile hfileSelected
            rwa [firstMalformed_congr P files hsame, hsame file hfileSelected,
              Function.update_of_ne (hother file hfile)] at houtcome
        · -- The run ends here.
          obtain ⟨e, herror⟩ := rebinText_error_of_not_wellFormed P hwell
          have hbad : malformed P d head := by simp [malformed, hselected, hcontent, hwell]
          rw [fileLoop_cons_error hselected hcontent herror, firstMalformed_cons_of_pos hbad]
          rcases List.mem_cons.mp hfile with rfl | hfile
          · exact ⟨fun _ => Function.update_self _ _ _, fun h => absurd rfl h⟩
          · refine ⟨?_, fun _ => Or.inl (Function.update_of_ne (hother file hfile) _ _)⟩
            intro h
            exact absurd hfile (Option.some.inj h ▸ hhead)
      · have hskip : ¬ malformed P d head := by simp [malformed, hselected]
        rw [fileLoop_cons_skip hselected, firstMalformed_cons_of_not hskip]
        rcases List.mem_cons.mp hfile with rfl | hfile
        · exact absurd hfileSelected hselected
        · exact ih hnodup' hexist' file hfile hfileSelected

/-- A run leaves every result as it was or complete exactly if the file it aborts
on, should there be one, had an empty `_parsed` file already. -/
theorem run_undamaged_iff (P : Python K) (d : Directory) (listing : Listing d) :
    Undamaged P d (run P listing).1 ↔
      ∀ file, firstMalformed P d listing.names = some file →
        d (parsed file) = some [] := by
  have hexist : ∀ file ∈ listing.names, (d file).isSome :=
    fun file hfile => (listing.complete file).mp hfile
  have houtcome := fileLoop_outcome P listing.nodup hexist
  constructor
  · rintro ⟨hresults, -⟩ file hfirst
    have hbad : malformed P d file := List.find?_some hfirst
    obtain ⟨hselected, hmalformed⟩ := Bool.and_eq_true_iff.mp hbad
    have hfile : file ∈ listing.names := List.mem_of_find?_eq_some hfirst
    have hempty := (houtcome file hfile hselected).1 hfirst
    rcases hresults file hselected (hexist file hfile) with
      hsame | ⟨content, text, hcontent, htext, -⟩
    · exact hsame.symm.trans hempty
    · have hwell := (rebinText_ok_iff P content).mp ⟨text, htext⟩
      simp [hcontent, hwell] at hmalformed
  · intro hempty
    refine ⟨?_, ?_⟩
    · intro file hselected hisSome
      have hfile := (listing.complete file).mpr hisSome
      obtain ⟨hfirst, hrest⟩ := houtcome file hfile hselected
      by_cases h : firstMalformed P d listing.names = some file
      · exact Or.inl ((hfirst h).trans (hempty file h).symm)
      · exact hrest h
    · intro name hname
      exact fileLoop_frame P listing.names d fun file hfile hselected =>
        hname file hselected (hexist file hfile)

def bess : Name := "bess.DATA".toList

/-- A file in the format of latency-v2v, next to a result of an earlier run. -/
def v2vDirectory : Directory := fun name =>
  if name = bess then
    some "105.39329181984 1\n107.68032671498 1\n104.90905112053 1\n".toList
  else if name = parsed bess then some "0.1, 3\n".toList
  else none

def v2vListing : Listing v2vDirectory where
  names := [bess, parsed bess]
  nodup := by decide
  complete name := by
    unfold v2vDirectory
    split_ifs with hdata hparsed
    · simp [hdata]
    · simp [hparsed]
    · simp [hdata, hparsed]

theorem run_damages_v2vDirectory :
    ¬ Undamaged binary64 v2vDirectory (run binary64 v2vListing).1 := by
  rintro ⟨hresults, -⟩
  rcases hresults bess (by decide) (by decide) with
    hsame | ⟨content, text, hcontent, htext, -⟩
  · have hempty : (run binary64 v2vListing).1 (parsed bess) = some [] := by
      decide +kernel
    rw [hempty] at hsame
    revert hsame
    decide
  · have hfails : ¬ wellFormed binary64 content := by
      cases hcontent
      decide +kernel
    exact hfails ((rebinText_ok_iff binary64 content).mp ⟨text, htext⟩)

end SoftwareSwitches.Histogram
