import ModCaucho.Config.Configured
import ModCaucho.Registry.Prolog

/-!
# Prologs of the configuration files

An XML declaration, a doctype declaration or a comment in front of any of the files that a
server reads, be it the file of a directive, an included one or a `web.xml`, changes neither
whether the server starts nor the settings that it starts with.
-/

namespace ModCaucho

open LinkedForest

/-- The machine with other files. -/
def Machine.withFiles (m : Machine) (files : Files) : Machine := { m with files := files }

/-- Two results of `cse_parse` for the server that differ in the text of a message at most. -/
inductive SameLoad : Except Stop (Option Registry × Option Text) →
    Except Stop (Option Registry × Option Text) → Prop
  | ok {root : Option Registry} {error error' : Option Text}
      (herror : error'.isSome = error.isSome) : SameLoad (.ok (root, error)) (.ok (root, error'))
  | stop (stop : Stop) : SameLoad (.error stop) (.error stop)

section

variable {m : Machine} {files' : Files}

theorem parsed_prefaced (h : ∀ path, Option.Rel Prefaced (m.files path) (files' path))
    (path : Text) {file file' : Text} (hfile : Prefaced file file') :
    SameLoad (m.parsed path file) ((m.withFiles files').parsed path file') := by
  have hsame := @cseParse_prefaced m.fresh m.files files' h m.depth path file file' hfile
    Heap.empty none none rfl
  unfold Machine.parsed Machine.parse Machine.withFiles
  simp only
  generalize cseParse m.fresh m.files m.depth path file Heap.empty none = r at hsame ⊢
  generalize cseParse m.fresh files' m.depth path file' Heap.empty none = r' at hsame ⊢
  cases hsame with
  | ok herror => exact .ok herror
  | null herror => exact .ok herror
  | crash => exact .stop _
  | endless => exact .stop _

/-- A file with what it is read to, on both machines. -/
theorem files_prefaced (h : ∀ path, Option.Rel Prefaced (m.files path) (files' path))
    (path : Text) :
    (m.files path = none ∧ files' path = none) ∨
      ∃ file file', m.files path = some file ∧ files' path = some file' ∧
        SameLoad (m.parsed path file) ((m.withFiles files').parsed path file') := by
  have hrel := h path
  rcases hfile : m.files path with _ | file
  · rw [hfile] at hrel
    generalize files' path = o at hrel ⊢
    cases hrel
    exact Or.inl ⟨rfl, rfl⟩
  · rw [hfile] at hrel
    generalize files' path = o at hrel ⊢
    cases hrel with
    | some hpreface => exact Or.inr ⟨file, _, rfl, rfl, parsed_prefaced h path hpreface⟩

variable (h : ∀ path, Option.Rel Prefaced (m.files path) (files' path))

include h

theorem serverAt_prefaced (path : Text) : (m.withFiles files').serverAt path = m.serverAt path := by
  have hfiles : (m.withFiles files').files path = files' path := rfl
  unfold Machine.serverAt
  rw [hfiles]
  rcases files_prefaced h path with ⟨hnone, hnone'⟩ | ⟨file, file', hfile, hfile', hload⟩
  · rw [hnone, hnone']
  · rw [hfile, hfile']
    simp only
    generalize m.parsed path file = r at hload ⊢
    generalize (m.withFiles files').parsed path file' = r' at hload ⊢
    cases hload <;> rfl

theorem webXml_prefaced : (m.withFiles files').webXml = m.webXml := by
  funext path
  have hfiles : (m.withFiles files').files path = files' path := rfl
  unfold Machine.webXml
  rw [hfiles]
  rcases files_prefaced h path with ⟨hnone, hnone'⟩ | ⟨file, file', hfile, hfile', hload⟩
  · rw [hnone, hnone']
  · rw [hfile, hfile']
    simp only
    generalize m.parsed path file = r at hload ⊢
    generalize (m.withFiles files').parsed path file' = r' at hload ⊢
    cases hload <;> rfl

theorem readsWell_prefaced (path : Text) :
    (m.withFiles files').ReadsWell path ↔ m.ReadsWell path := by
  have hfiles : (m.withFiles files').files path = files' path := rfl
  rcases files_prefaced h path with ⟨hnone, hnone'⟩ | ⟨file, file', hfile, hfile', hload⟩
  · simp [Machine.ReadsWell, hfiles, hnone, hnone']
  · rw [readsWell_iff hfile, readsWell_iff (hfiles.trans hfile')]
    generalize m.parsed path file = r at hload ⊢
    generalize (m.withFiles files').parsed path file' = r' at hload ⊢
    cases hload with
    | stop stop => simp
    | @ok root error error' herror =>
        cases error <;> cases error' <;> simp at herror ⊢

theorem sound_prefaced (d : Directive) (home : Text) :
    d.Sound (m.withFiles files') home ↔ d.Sound m home := by
  have hthere (path : Text) :
      (m.withFiles files').ReadsWellIfThere path ↔ m.ReadsWellIfThere path := by
    have hnone : (m.withFiles files').files path = none ↔ m.files path = none := by
      have hfiles : (m.withFiles files').files path = files' path := rfl
      rcases files_prefaced h path with ⟨hnone, hnone'⟩ | ⟨file, file', hfile, hfile', -⟩
      · simp [hfiles, hnone, hnone']
      · simp [hfiles, hfile, hfile']
    unfold Machine.ReadsWellIfThere
    rw [hnone, readsWell_prefaced h]
  have hroot (value : Text) : (m.withFiles files').serverRoot value = m.serverRoot value := rfl
  have hhosts : (m.withFiles files').hostent = m.hostent := rfl
  cases d with
  | configFile value =>
      simp only [sound_configFile_iff, hroot, hhosts, serverAt_prefaced h, readsWell_prefaced h,
        hthere]
  | host hostArg portArg => rw [sound_iff_runners rfl, sound_iff_runners rfl]; rfl
  | backup hostArg portArg => rw [sound_iff_runners rfl, sound_iff_runners rfl]; rfl
  | keepalive flag => rw [sound_iff_runners rfl, sound_iff_runners rfl]; rfl
  | errorPage page => rw [sound_iff_runners rfl, sound_iff_runners rfl]; rfl

theorem apply_prefaced (d : Directive) (s : Settings) :
    d.apply (m.withFiles files') s = d.apply m s := by
  have hroot (value : Text) : (m.withFiles files').serverRoot value = m.serverRoot value := rfl
  have hhosts : (m.withFiles files').hostent = m.hostent := rfl
  cases d with
  | configFile value =>
      simp only [Directive.apply, loaded, hroot, hhosts, serverAt_prefaced h, webXml_prefaced h]
  | host hostArg portArg => rfl
  | backup hostArg portArg => rfl
  | keepalive flag => rfl
  | errorPage page => rfl

/-- Prologs do not matter: the server starts with them exactly if it starts without them, and
then with the same settings. -/
theorem configure_prefaced (ds : List Directive) (s : Settings) :
    configure (m.withFiles files') ds .start = .ok s ↔ configure m ds .start = .ok s := by
  have hhome (home : Option Text) :
      homeAfter (m.withFiles files') home ds = homeAfter m home ds := rfl
  have happly : (fun s d => Directive.apply (m.withFiles files') s d) =
      fun s d => Directive.apply m s d := by
    funext s d
    exact apply_prefaced h d s
  rw [configure_ok_iff _ ds rfl, configure_ok_iff m ds rfl, happly]
  simp only [hhome, sound_prefaced h]

end

/-! ## A small file -/

/-- A prolog with each kind of markup. -/
def smallProlog : Text :=
  "<?xml version='1.0'?>\n<!DOCTYPE c SYSTEM \"a>b\">\n<!-- a > b -->\n".toList

theorem prolog_small : Prolog smallProlog := by
  have hblank : ∀ ch ∈ "\n".toList, isBlank ch := by
    intro ch hch
    rw [show "\n".toList = ['\n'] from rfl, List.mem_singleton] at hch
    exact Or.inr (Or.inr (Or.inl hch))
  have hquoted : DoctypeBody "\"a>b\"".toList :=
    @DoctypeBody.quoted '"' "a>b".toList [] (Or.inl rfl) (by decide) .nil
  have hdoctype : DoctypeBody "OCTYPE c SYSTEM \"a>b\"".toList :=
    @DoctypeBody.plain "OCTYPE c SYSTEM ".toList _ (by decide) (by decide) (by decide) hquoted
  exact @Prolog.markup [] _ _ (by simp) (by decide)
    (@Unread.pi "xml version='1.0'".toList (by decide))
    (@Prolog.markup "\n".toList _ _ hblank (by decide) (.doctype hdoctype)
      (@Prolog.markup "\n".toList _ _ hblank (by decide)
        (@Unread.comment " a > b ".toList (by decide)) (.blank hblank (by decide))))

/-- The files of the small machine with the prolog in front of each. -/
def prefacedFiles : Files := fun path => (smallMachine.files path).map (smallProlog ++ ·)

theorem smallFiles_prefaced (path : Text) :
    Option.Rel Prefaced (smallMachine.files path) (prefacedFiles path) := by
  by_cases hpath : path = "/r/conf/f".toList
  · have hfile : smallMachine.files path = some smallFile := if_pos hpath
    rw [prefacedFiles, hfile]
    exact .some (.prolog prolog_small (by decide +kernel))
  · have hfile : smallMachine.files path = none := if_neg hpath
    rw [prefacedFiles, hfile]
    exact .none

theorem configure_prefaced_small :
    configure (smallMachine.withFiles prefacedFiles) smallDirectives .start =
        .ok smallSettings ↔
      configure smallMachine smallDirectives .start = .ok smallSettings :=
  configure_prefaced smallFiles_prefaced smallDirectives smallSettings

end ModCaucho
