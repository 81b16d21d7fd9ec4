/-
File trees: what a write changes.

A write puts one file where its path leads. The path leads there still, now to the file with its new content, and
all files at other places are as they were (`FileTree.find_of_write`). That the path leads to the same place is not
clear at once, since where a name leads depends on which places are directories, and these are told by the files
below them. But a write takes no file away, so every directory that the path goes through is one still, and the
place itself has not become one, for the only new file is at it and not below it.

What cannot be read or written has no part in where a path leads. It decides only on whether a file that is found
there is read (`FileTree.read_eq_ok_iff`) and whether one is put there (`FileTree.exists_place_of_write`), and no
write changes it.
-/
import UtteranceGrammar.Command.Store

set_option autoImplicit false

namespace UtteranceGrammar

/-- The place where a file is or can be, unless a directory is there. -/
def Found.place? : Found → Option Place
  | .directory => none
  | .file place _ => some place
  | .vacant place => some place

namespace FileTree

variable {t t' : FileTree} {place start other : Place} {content : ByteArray} {names : List String}

/-! ## One file in a tree -/

/-- Taking out the entries of one key leaves those of all others. -/
theorem lookup_filter_of_ne {files : List (Place × ByteArray)} (h : other ≠ place) :
    (files.filter (·.1 ≠ place)).lookup other = files.lookup other := by
  induction files with
  | nil => rfl
  | cons f files ih =>
    by_cases hf : f.1 = place
    · have hother : (other == f.1) = false := beq_false_of_ne (hf ▸ h)
      rw [List.filter_cons_of_neg (by simpa using hf), List.lookup_cons, hother, ih]
    · rw [List.filter_cons_of_pos (by simpa using hf), List.lookup_cons, List.lookup_cons, ih]

/-- What has been put at a place is found there. -/
@[simp] theorem get?_put_self (t : FileTree) (place : Place) (content : ByteArray) :
    (t.put place content).get? place = some content := by
  simp [get?, put]

/-- Putting a file at one place leaves the files at all others. -/
theorem get?_put_of_ne (h : other ≠ place) :
    (t.put place content).get? other = t.get? other := by
  have hother : (other == place) = false := beq_false_of_ne h
  rw [get?, put, List.lookup_cons, hother]
  exact lookup_filter_of_ne h

/-- A directory stays one when a file is put somewhere. -/
theorem isDirectory_put (h : t.isDirectory other = true) :
    (t.put place content).isDirectory other = true := by
  simp only [isDirectory, Bool.or_eq_true, List.any_eq_true] at h ⊢
  refine h.imp_right ?_
  rintro ⟨f, hf, hbelow⟩
  by_cases hplace : f.1 = place
  · exact ⟨(place, content), List.mem_cons_self, hplace ▸ hbelow⟩
  · refine ⟨f, List.mem_cons_of_mem _ (List.mem_filter.2 ⟨hf, by simpa using hplace⟩), hbelow⟩

/-- The place of a file does not become a directory when the file is put there. -/
theorem isDirectory_put_self (h : t.isDirectory place = false) :
    (t.put place content).isDirectory place = false := by
  simp only [isDirectory, Bool.or_eq_false_iff, List.any_eq_false] at h ⊢
  refine ⟨h.1, ?_⟩
  intro f hf
  rcases List.mem_cons.1 hf with rfl | hf
  · simp
  · exact h.2 f (List.mem_filter.1 hf).1

/-! ## Following a path -/

/-- Where a file is or can be, it is found once it has been put there, on the same way. -/
theorem follow_put {found : Found} (h : t.follow start names = .ok found)
    (hplace : found.place? = some place) :
    (t.put place content).follow start names = .ok (.file place content) := by
  induction names generalizing start with
  | nil =>
    obtain rfl := Except.ok.inj h
    exact absurd hplace (by simp [Found.place?])
  | cons name names ih =>
    unfold follow at h ⊢
    by_cases hsize : maxNameSize < name.utf8ByteSize
    · rw [if_pos hsize] at h
      exact absurd h (by simp)
    · rw [if_neg hsize] at h ⊢
      by_cases hdirectory : t.isDirectory (next start name) = true
      · rw [if_pos hdirectory] at h
        rw [if_pos (isDirectory_put hdirectory)]
        exact ih h
      · rw [if_neg hdirectory] at h
        -- the way ends here
        obtain ⟨rfl, hthere⟩ : names = [] ∧ next start name = place := by
          cases hget : t.get? (next start name) <;> cases names <;> rw [hget] at h <;> simp at h
          all_goals
            subst h
            simpa [Found.place?] using hplace
        rw [Bool.not_eq_true] at hdirectory
        rw [hthere] at hdirectory ⊢
        rw [isDirectory_put_self hdirectory, if_neg Bool.false_ne_true, get?_put_self]

/-- A file is read if a path leads to it and nothing stands in the way of reading it. -/
theorem read_eq_ok_iff {path : String} : t.read path = .ok content ↔
    ∃ place, t.find path = .ok (.file place content) ∧ t.unreadable.lookup place = none := by
  constructor
  · intro h
    unfold read at h
    split at h
    · rename_i place held hfound
      split at h
      · exact absurd h (by simp)
      · rename_i hreason
        obtain rfl := Except.ok.inj h
        exact ⟨place, hfound, hreason⟩
    all_goals exact absurd h (by simp)
  · rintro ⟨place, hfound, hreason⟩
    rw [read, hfound]
    simp only [hreason]

/-- Writing at a place goes through just if nothing stands in the way, and puts the file there. -/
theorem put_of_write {reason : Option StoreError}
    (h : (match reason with
      | some e => .error e
      | none => .ok (t.put place content) : Except StoreError FileTree) = .ok t') :
    reason = none ∧ t' = t.put place content := by
  cases reason with
  | some e => exact absurd h (by simp)
  | none => exact ⟨rfl, (Except.ok.inj h).symm⟩

/-- A write that succeeds puts the content where the path leads, which is no directory and where one can be
written. -/
theorem exists_place_of_write {path : String} (h : t.write path content = .ok t') :
    ∃ start names found place, route path = .ok (start, names) ∧ t.follow start names = .ok found ∧
      found.place? = some place ∧ t.unwritable.lookup place = none ∧ t' = t.put place content := by
  unfold write at h
  split at h
  · exact absurd h (by simp)
  · rename_i start names hroute
    by_cases hends : endsInDirectory names = true
    · rw [if_pos hends] at h
      split at h <;> exact absurd h (by simp)
    · rw [if_neg hends] at h
      split at h
      · rename_i place old hfound
        exact ⟨start, names, .file place old, place, hroute, hfound, rfl, put_of_write h⟩
      · rename_i place hfound
        exact ⟨start, names, .vacant place, place, hroute, hfound, rfl, put_of_write h⟩
      · exact absurd h (by simp)
      · exact absurd h (by simp)

/-- After a write the path leads where it has led before, to the file that has been written. All other files are as
they were, and the same can be read and written. -/
theorem find_of_write {path : String} (h : t.write path content = .ok t') :
    ∃ found place, t.find path = .ok found ∧ found.place? = some place ∧
      t'.find path = .ok (.file place content) ∧ (∀ other, other ≠ place → t'.get? other = t.get? other) ∧
      t'.unreadable = t.unreadable ∧ t'.unwritable = t.unwritable := by
  obtain ⟨start, names, found, place, hroute, hfound, hplace, -, rfl⟩ := exists_place_of_write h
  refine ⟨found, place, ?_, hplace, ?_, fun other hother => get?_put_of_ne hother, rfl, rfl⟩
  · rw [find, hroute]
    exact hfound
  · rw [find, hroute]
    exact follow_put hfound hplace

/-- A write that succeeds leads to a place where a file can be written. -/
theorem writable_of_write {path : String} (h : t.write path content = .ok t') :
    ∃ found place, t.find path = .ok found ∧ found.place? = some place ∧ t.unwritable.lookup place = none := by
  obtain ⟨start, names, found, place, hroute, hfound, hplace, hreason, -⟩ := exists_place_of_write h
  refine ⟨found, place, ?_, hplace, hreason⟩
  rw [find, hroute]
  exact hfound

/-! ## Requests to a tree -/

/-- Asking whether a file is there changes nothing. -/
theorem run_isFile (t : FileTree) (path : String) :
    (Store.isFile path : StateM FileTree Bool).run t = (t.isFile path, t) := rfl

/-- Reading changes nothing, whether it succeeds or not. -/
theorem run_read (t : FileTree) (path : String) :
    (Store.read path : StateM FileTree (Except StoreError ByteArray)).run t = (t.read path, t) := rfl

/-- Asking whether anything is there changes nothing. -/
theorem run_occupied (t : FileTree) (path : String) :
    (Store.occupied path : StateM FileTree Bool).run t = (t.occupied path, t) := rfl

/-- Writing leaves the tree that comes of it, and if it fails the tree as it was. -/
theorem run_write (t : FileTree) (path : String) (content : ByteArray) :
    (Store.write path content : StateM FileTree (Except StoreError Unit)).run t =
      match t.write path content with
      | .ok t' => (.ok (), t')
      | .error e => (.error e, t) := by
  show (match t.write path content with
    | .ok t' => (do set t'; return .ok ())
    | .error e => return .error e : StateM FileTree (Except StoreError Unit)).run t = _
  cases t.write path content <;> rfl

/-- Of two steps, the second starts with what the first has answered and left. -/
theorem run_bind_of {α β : Type} {x : StateM FileTree α} {f : α → StateM FileTree β} {a : α}
    (h : x.run t = (a, t')) : (x >>= f).run t = (f a).run t' := by
  show (f (x.run t).1).run (x.run t).2 = _
  rw [h]

end FileTree

end UtteranceGrammar
