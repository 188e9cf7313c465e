import SoftwareSwitches.Histogram.Script

/-!
# Running analyze_histogram.py again

Inputs and results share one directory and are told apart by their names alone.
When every selected file is well formed, a run is a function of the contents of
the selected files: it depends neither on the order of the listing nor on what an
earlier run has left behind.
-/

namespace SoftwareSwitches.Histogram

variable {K : Type*}

def AllWellFormed (P : Python K) (d : Directory) : Prop :=
  ∀ file content, selected file → d file = some content → wellFormed P content

theorem AllWellFormed.congr {P : Python K} {d d' : Directory} (h : AllWellFormed P d)
    (hsame : ∀ file, selected file → d' file = d file) : AllWellFormed P d' := by
  intro file content hselected hcontent
  rw [hsame file hselected] at hcontent
  exact h file content hselected hcontent

variable [LinearOrder K]

structure Refreshed (P : Python K) (d d' : Directory) : Prop where
  result : ∀ file content, selected file → d file = some content →
    ∃ text, rebinText P content = .ok text ∧ d' (parsed file) = some text
  frame : ∀ name, (∀ file, selected file → (d file).isSome → name ≠ parsed file) →
    d' name = d name

namespace Refreshed

variable {P : Python K} {d d' d'' : Directory}

theorem selected_eq (h : Refreshed P d d') {file : Name} (hselected : selected file) :
    d' file = d file :=
  h.frame file fun _ _ _ => ne_parsed_of_selected hselected

theorem unique (h' : Refreshed P d d') (h'' : Refreshed P d d'') : d' = d'' := by
  funext name
  by_cases hname : ∃ file, selected file ∧ (d file).isSome ∧ name = parsed file
  · obtain ⟨file, hselected, hisSome, rfl⟩ := hname
    obtain ⟨content, hcontent⟩ := Option.isSome_iff_exists.mp hisSome
    obtain ⟨text', htext', hresult'⟩ := h'.result file content hselected hcontent
    obtain ⟨text'', htext'', hresult''⟩ := h''.result file content hselected hcontent
    have hsame : text' = text'' := by
      rw [htext'] at htext''
      exact Except.ok.inj htext''
    rw [hresult', hresult'', hsame]
  · have hother : ∀ file, selected file → (d file).isSome → name ≠ parsed file :=
      fun file hselected hisSome heq => hname ⟨file, hselected, hisSome, heq⟩
    rw [h'.frame name hother, h''.frame name hother]

theorem self (h : Refreshed P d d') : Refreshed P d' d' where
  result file content hselected hcontent := by
    rw [h.selected_eq hselected] at hcontent
    exact h.result file content hselected hcontent
  frame _ _ := rfl

end Refreshed

theorem fileLoop_of_allWellFormed {P : Python K} {files : List Name} {d : Directory}
    (hnodup : files.Nodup) (hexist : ∀ file ∈ files, selected file → (d file).isSome)
    (hwell : AllWellFormed P d) :
    (fileLoop P files d).2 = none ∧
      ∀ file ∈ files, ∀ content, selected file → d file = some content →
        ∃ text, rebinText P content = .ok text ∧
          (fileLoop P files d).1 (parsed file) = some text := by
  induction files generalizing d with
  | nil => exact ⟨rfl, by simp⟩
  | cons head files ih =>
      obtain ⟨hhead, hnodup'⟩ := List.nodup_cons.mp hnodup
      by_cases hselected : selected head
      · obtain ⟨content, hcontent⟩ :=
          Option.isSome_iff_exists.mp (hexist head (by simp) hselected)
        obtain ⟨text, htext⟩ :=
          (rebinText_ok_iff P content).mpr (hwell head content hselected hcontent)
        rw [fileLoop_cons_ok hselected hcontent htext]
        have hsame : ∀ file, selected file →
            Function.update d (parsed head) (some text) file = d file :=
          fun file h => update_parsed_of_selected d head _ h
        have hexist' : ∀ file ∈ files, selected file →
            (Function.update d (parsed head) (some text) file).isSome := by
          intro file hfile h
          rw [hsame file h]
          exact hexist file (List.mem_cons_of_mem head hfile) h
        obtain ⟨hend, hresults⟩ := ih hnodup' hexist' (hwell.congr hsame)
        refine ⟨hend, ?_⟩
        intro file hfile content' hselected' hcontent'
        rcases List.mem_cons.mp hfile with rfl | hfile
        · -- No later file writes the same result.
          have hkept : (fileLoop P files (Function.update d (parsed file) (some text))).1
              (parsed file) = some text := by
            rw [fileLoop_kept P hhead, Function.update_self]
          rw [hcontent] at hcontent'
          cases hcontent'
          exact ⟨text, htext, hkept⟩
        · rw [← hsame file hselected'] at hcontent'
          exact hresults file hfile content' hselected' hcontent'
      · rw [fileLoop_cons_skip hselected]
        have hexist' : ∀ file ∈ files, selected file → (d file).isSome :=
          fun file hfile => hexist file (List.mem_cons_of_mem head hfile)
        obtain ⟨hend, hresults⟩ := ih hnodup' hexist' hwell
        refine ⟨hend, ?_⟩
        intro file hfile content hselected' hcontent
        rcases List.mem_cons.mp hfile with rfl | hfile
        · exact absurd hselected' hselected
        · exact hresults file hfile content hselected' hcontent

theorem run_refreshed {P : Python K} {d : Directory} (hwell : AllWellFormed P d)
    (listing : Listing d) :
    (run P listing).2 = none ∧ Refreshed P d (run P listing).1 := by
  have hexist : ∀ file ∈ listing.names, selected file → (d file).isSome :=
    fun file hfile _ => (listing.complete file).mp hfile
  obtain ⟨hend, hresults⟩ := fileLoop_of_allWellFormed listing.nodup hexist hwell
  refine ⟨hend, ?_, ?_⟩
  · intro file content hselected hcontent
    have hfile : file ∈ listing.names := by
      rw [listing.complete, hcontent]
      rfl
    exact hresults file hfile content hselected hcontent
  · intro name hname
    apply fileLoop_frame P listing.names d
    intro file hfile hselected
    exact hname file hselected (hexist file hfile hselected)

theorem run_eq_of_refreshed {P : Python K} {d d' : Directory} (hwell : AllWellFormed P d)
    (listing : Listing d) (htarget : Refreshed P d d') : run P listing = (d', none) := by
  obtain ⟨hend, hrefreshed⟩ := run_refreshed hwell listing
  exact Prod.ext (hrefreshed.unique htarget) hend

/-- With well formed inputs a run writes only `X_parsed` files, a second run changes
nothing, and the order of the listing does not matter. -/
theorem run_again (P : Python K) (d : Directory) (hwell : AllWellFormed P d)
    (listing : Listing d) :
    (run P listing).2 = none ∧
    (∀ name, (∀ file, selected file → (d file).isSome → name ≠ parsed file) →
      (run P listing).1 name = d name) ∧
    (∀ again : Listing (run P listing).1,
      run P again = ((run P listing).1, none)) ∧
    ∀ reordered : Listing d, run P reordered = run P listing := by
  obtain ⟨hend, hrefreshed⟩ := run_refreshed hwell listing
  refine ⟨hend, hrefreshed.frame, ?_, ?_⟩
  · intro again
    have hwell' : AllWellFormed P (run P listing).1 :=
      hwell.congr fun _ hselected => hrefreshed.selected_eq hselected
    exact run_eq_of_refreshed hwell' again hrefreshed.self
  · intro reordered
    rw [run_eq_of_refreshed hwell reordered hrefreshed]
    exact Prod.ext rfl hend.symm

/-- A file in the format of latency-p2p, next to a result of an earlier run. -/
def p2pDirectory : Directory := fun name =>
  if name = bess then some "# Samples\n3853,1\n3860,1\n4320,2\n".toList
  else if name = parsed bess then some "0.1, 3\n".toList
  else none

def p2pListing : Listing p2pDirectory where
  names := [parsed bess, bess]
  nodup := by decide
  complete name := by
    unfold p2pDirectory
    split_ifs with hdata hparsed
    · simp [hdata]
    · simp [hparsed]
    · simp [hdata, hparsed]

theorem p2pDirectory_allWellFormed : AllWellFormed binary64 p2pDirectory := by
  intro file content hselected hcontent
  unfold p2pDirectory at hcontent
  split_ifs at hcontent with hdata hparsed
  · cases hcontent
    decide +kernel
  · exact absurd hselected (hparsed ▸ not_selected_parsed bess)

theorem run_again_p2pDirectory :
    AllWellFormed binary64 p2pDirectory ∧ (run binary64 p2pListing).2 = none ∧
    (run binary64 p2pListing).1 (parsed bess) = some "3.9, 2\n4.3, 2\n".toList ∧
    (run binary64 p2pListing).1 bess = p2pDirectory bess ∧
    ∀ again : Listing (run binary64 p2pListing).1,
      run binary64 again = ((run binary64 p2pListing).1, none) := by
  obtain ⟨hend, hframe, hagain, -⟩ :=
    run_again binary64 p2pDirectory p2pDirectory_allWellFormed p2pListing
  refine ⟨p2pDirectory_allWellFormed, hend, by decide +kernel, ?_, hagain⟩
  exact hframe bess fun _ _ _ => ne_parsed_of_selected (by decide)

end SoftwareSwitches.Histogram
