import Mathlib.Data.List.Basic
import Lossless.Command

/-!
# Files that are written

A file that is written is read back as it was, under the path by which it was written, and every
other file stays as it was (`Disk.saved_of_write`). The walk down the path has to come to the new
file on the new disk: the directories on the way are still there, since a disk loses no directory
when a file is put on it.
-/

namespace Lossless

/-! ## Paths -/

theorem segments_ne_nil (cs : List Char) : segments cs ≠ [] := by
  cases cs with
  | nil => simp [segments]
  | cons c cs =>
    unfold segments
    split <;> simp

/-- The last piece of a path is empty only if the path is empty or ends with a slash. -/
theorem getLast?_segments_ne {cs : List Char} (hne : cs ≠ []) (hslash : cs.getLast? ≠ some '/') :
    (segments cs).getLast? ≠ some [] := by
  induction cs with
  | nil => exact absurd rfl hne
  | cons c cs ih =>
    by_cases hcs : cs = []
    · subst hcs
      have hc : c ≠ '/' := fun hc => hslash (by rw [hc]; rfl)
      simp [segments]
    · rw [List.getLast?_cons_of_ne_nil hcs] at hslash
      have hlast := ih hcs hslash
      have hpieces := segments_ne_nil cs
      by_cases hc : c = '/'
      · rwa [hc, segments, List.getLast?_cons_of_ne_nil hpieces]
      · obtain ⟨s, ss, hss⟩ := List.exists_cons_of_ne_nil hpieces
        rw [hss] at hlast
        simp only [segments, hss]
        -- The first piece gets one character more; it is the last one only if it is the only one.
        cases ss with
        | nil => simp
        | cons u us =>
          rw [List.getLast?_cons_of_ne_nil (by simp)] at hlast ⊢
          exact hlast

/-- No piece is dropped from the end of a path that names a file. -/
theorem named_segments {cs : List Char} (hne : cs ≠ []) (hslash : cs.getLast? ≠ some '/') :
    ((segments cs).reverse.dropWhile List.isEmpty).reverse = segments cs := by
  have hlast := getLast?_segments_ne hne hslash
  rw [← List.head?_reverse] at hlast
  have hkeep : (segments cs).reverse.dropWhile List.isEmpty = (segments cs).reverse := by
    cases hrev : (segments cs).reverse with
    | nil => rfl
    | cons s ss =>
      rw [hrev] at hlast
      cases s with
      | nil => exact absurd rfl hlast
      | cons c s => rfl
  rw [hkeep, List.reverse_reverse]

/-! ## Putting a file on a disk -/

/-- The location at which a file is or can be. -/
def Spot.place? : Spot → Option Location
  | .file location _ => some location
  | .vacant location => some location
  | .directory _ => none
  | .outside => none

namespace Disk

variable {d : Disk} {location : Location}

/-- A disk with a file put on it has this file and the others. -/
theorem lookup_put (d : Disk) (location l : Location) (bytes : ByteArray) :
    (d.put location bytes).files.lookup l =
      if l = location then some bytes else d.files.lookup l := by
  by_cases h : l = location
  · subst h
    simp [put]
  · have hl : (l == location) = false := beq_eq_false_iff_ne.2 h
    simp only [put, List.lookup_cons, hl, if_neg h]
    induction d.files with
    | nil => rfl
    | cons f fs ih =>
      obtain ⟨key, value⟩ := f
      by_cases hkey : key = location
      · simp [hkey, List.lookup_cons, hl, ih]
      · simp [hkey, List.lookup_cons, ih]

/-- No directory is lost when a file is put on a disk. -/
theorem hasDirectory_put {l : Location} (bytes : ByteArray) (h : d.hasDirectory l = true) :
    (d.put location bytes).hasDirectory l = true := by
  simp only [hasDirectory, Bool.or_eq_true, List.any_eq_true] at h ⊢
  rcases h with h | ⟨f, hf, hbelow⟩
  · exact Or.inl h
  · by_cases hplace : f.1 = location
    · -- The file that shows the directory is the one that is replaced.
      exact Or.inr ⟨(location, bytes), List.mem_cons_self, by rw [← hplace]; exact hbelow⟩
    · exact Or.inr ⟨f, List.mem_cons_of_mem _ (List.mem_filter.2 ⟨hf, by simpa using hplace⟩), hbelow⟩

theorem spotAt_put_self (bytes : ByteArray) :
    (d.put location bytes).spotAt location = .file location bytes := by
  simp [spotAt, lookup_put]

/-- A directory is still there when a file has been put elsewhere. -/
theorem spotAt_put_directory {l : Location} (bytes : ByteArray) (hl : l ≠ location)
    (h : d.spotAt l = .directory l) : (d.put location bytes).spotAt l = .directory l := by
  unfold spotAt at h
  split at h
  · cases h
  · rename_i hnone
    split at h
    · rename_i hdir
      simp only [spotAt, lookup_put, if_neg hl, hnone, hasDirectory_put bytes hdir, if_true]
    · cases h

/-- What is at a location is a directory there, or a place for a file there. -/
theorem spotAt_cases (d : Disk) (l : Location) :
    d.spotAt l = .directory l ∨ (d.spotAt l).place? = some l := by
  unfold spotAt
  split
  · exact Or.inr rfl
  · split
    · exact Or.inl rfl
    · exact Or.inr rfl

/-- From a place for a file there is no way on. -/
theorem walk_of_place {spot spot' : Spot} {ss : List (List Char)} {l : Location}
    (hplace : spot.place? = some l) (h : d.walk spot ss = .ok spot') : ss = [] ∧ spot' = spot := by
  cases ss with
  | nil =>
    cases spot <;> cases h <;> exact ⟨rfl, rfl⟩
  | cons s ss => cases spot <;> first | cases h | cases hplace

/-- A walk that ends at a place for a file ends at what is there. -/
theorem spotAt_of_walk {spot spot' : Spot} {ss : List (List Char)} (hstart : spot.place? = none)
    (hend : spot'.place? = some location) (h : d.walk spot ss = .ok spot') :
    d.spotAt location = spot' := by
  -- By induction on the parts of the path: only from a directory does a walk reach a place for a
  -- file, and only with its last part.
  induction ss generalizing spot with
  | nil =>
    have heq : spot = spot' := by cases spot <;> cases h <;> rfl
    rw [heq, hend] at hstart
    cases hstart
  | cons s ss ih =>
    cases spot with
    | file l bytes => cases hstart
    | vacant l => cases hstart
    | outside =>
      simp only [walk] at h
      split at h
      · exact ih rfl h
      · cases h
    | directory l =>
      simp only [walk] at h
      split at h
      · exact ih rfl h
      · split at h
        · refine ih ?_ h
          split <;> rfl
        · rcases d.spotAt_cases (l ++ [s]) with hdir | hplace
          · rw [hdir] at h
            exact ih rfl h
          · obtain ⟨-, rfl⟩ := walk_of_place hplace h
            rw [hplace] at hend
            cases hend
            rfl

/-- The way to the place of a file leads to the file that is put there. -/
theorem walk_put {spot spot' : Spot} {ss : List (List Char)} (bytes : ByteArray)
    (hstart : spot.place? = none) (hend : spot'.place? = some location)
    (h : d.walk spot ss = .ok spot') :
    (d.put location bytes).walk spot ss = .ok (.file location bytes) := by
  have hspot := spotAt_of_walk hstart hend h
  induction ss generalizing spot with
  | nil =>
    have heq : spot = spot' := by cases spot <;> cases h <;> rfl
    rw [heq, hend] at hstart
    cases hstart
  | cons s ss ih =>
    cases spot with
    | file l b => cases hstart
    | vacant l => cases hstart
    | outside =>
      simp only [walk] at h ⊢
      split at h
      · rename_i hs
        rw [if_pos hs]
        exact ih rfl h
      · cases h
    | directory l =>
      simp only [walk] at h ⊢
      split at h
      · rename_i hs
        rw [if_pos hs]
        exact ih rfl h
      · rename_i hs
        rw [if_neg hs]
        split at h
        · rename_i hup
          rw [if_pos hup]
          refine ih ?_ h
          split <;> rfl
        · rename_i hup
          rw [if_neg hup]
          rcases d.spotAt_cases (l ++ [s]) with hdir | hplace
          · -- A directory on the way is not the place of the file, so it is still there.
            have hne : l ++ [s] ≠ location := by
              intro heq
              rw [← heq, hdir] at hspot
              rw [← hspot] at hend
              cases hend
            rw [hdir] at h
            rw [spotAt_put_directory bytes hne hdir]
            exact ih rfl h
          · obtain ⟨rfl, rfl⟩ := walk_of_place hplace h
            rw [hplace] at hend
            cases hend
            rw [spotAt_put_self]
            rfl

/-! ## Writing and reading back -/

/-- A text that has been encoded is read back. -/
theorem decodeText_toUTF8 (text : String) : decodeText text.toUTF8 = .ok text := by
  have h : String.fromUTF8? text.toUTF8 = some text := dif_pos text.isValidUTF8
  simp only [decodeText, h]

/-- The second disk has a file of the given text under a path, and no other file has changed. -/
def Saved (d d' : Disk) (path text : String) : Prop :=
  d'.read path = .ok text ∧
    ∃ location, d'.walk (start path.toList) (segments path.toList) =
        .ok (.file location text.toUTF8) ∧
      ∀ l, l ≠ location → d'.files.lookup l = d.files.lookup l

/-- No path starts at a place for a file. -/
theorem place?_start (path : List Char) : (start path).place? = none := by
  unfold start
  split <;> rfl

/-- A file is written by putting it at the place to which its path leads. -/
theorem exists_of_write {d' : Disk} {path text : String} (h : d.write path text = .ok d') :
    ∃ spot location, path.toList ≠ [] ∧
      d.walk (start path.toList) (segments path.toList) = .ok spot ∧
      spot.place? = some location ∧ d' = d.put location text.toUTF8 := by
  unfold write at h
  split at h
  · cases h
  rename_i hpath
  have hne : path.toList ≠ [] := by
    intro hnil
    apply hpath
    simpa [String.isEmpty_iff] using hnil
  by_cases hslash : path.toList.getLast? = some '/'
  · -- A path that ends with a slash is that of no file.
    simp only [hslash, if_true] at h
    cases hwalk : d.walk (start path.toList)
        ((segments path.toList).reverse.dropWhile List.isEmpty).reverse with
    | error cause =>
      rw [hwalk] at h
      cases h
    | ok spot =>
      rw [hwalk] at h
      cases spot <;> cases h
  · simp only [named_segments hne hslash, hslash, if_false] at h
    cases hwalk : d.walk (start path.toList) (segments path.toList) with
    | error cause =>
      rw [hwalk] at h
      cases h
    | ok spot =>
      rw [hwalk] at h
      refine ⟨spot, ?_⟩
      cases spot with
      | file location bytes =>
        cases h
        exact ⟨location, hne, rfl, rfl, rfl⟩
      | vacant location =>
        cases h
        exact ⟨location, hne, rfl, rfl, rfl⟩
      | directory location => cases h
      | outside => cases h

/-- A file that is written can be read, and no other file is changed. -/
theorem saved_of_write {d' : Disk} {path text : String} (h : d.write path text = .ok d') :
    d.Saved d' path text := by
  obtain ⟨spot, location, hne, hwalk, hplace, rfl⟩ := exists_of_write h
  have hfile := walk_put text.toUTF8 (place?_start path.toList) hplace hwalk
  have hpath : path.isEmpty = false := by
    rw [Bool.eq_false_iff, Ne, String.isEmpty_iff]
    rintro rfl
    exact hne rfl
  refine ⟨?_, location, hfile, ?_⟩
  · simp only [read, hpath, hfile, bind, Except.bind]
    exact decodeText_toUTF8 text
  · intro l hl
    rw [lookup_put, if_neg hl]

/-! ## Commands -/

/-- Runs a command on a disk. -/
def perform (d : Disk) (render : Renderer) (options : Options) : Transcript × Disk :=
  Command.run host render options d

/-- A command that reads a file goes on with what it finds. -/
theorem read_bind {α : Type} (d : Disk) (path : String)
    (next : Except FileCause String → StateM Disk α) :
    (host.read path >>= next) d = next (d.read path) d := rfl

/-- A command that writes a file goes on with the new disk. -/
theorem write_bind {α : Type} {d' : Disk} {out text : String} (h : d.write out text = .ok d')
    (next : Except FileCause Unit → StateM Disk α) :
    (host.write out text >>= next) d = next (.ok ()) d' := by
  have hhost : host.write out text d = (.ok (), d') := by
    simp only [host, bind, StateT.bind, get, getThe, MonadStateOf.get, StateT.get, pure, h]
    rfl
  simp only [bind, StateT.bind, hhost]

end Disk

end Lossless
