import BuildComposition.FileTree

/-!
# Canonical paths

The names on the way to anything that stands in a file tree are valid, so that the path of its
location spells them one by one.  Two canonical paths therefore name the same only if they are the
same path.

## Main results

* `FileTree.validName_of_entry`: names in a tree are valid
* `Path.components_path`: the components of the path of a location are its names
* `FileTree.canonicalFile?_eq_of_agrees`: canonical paths that agree are equal
* `FileTree.locate_path`: the path of a file or a directory leads to it
* `FileTree.canonicalize_eq_ok_iff`, `FileTree.passes_path`: when there is a canonical path
* `FileTree.isDirectory_parent`: the directory of a canonical path is a directory
* `FileTree.not_agrees_parent`: it agrees with no canonical path of a file
-/

namespace BuildComposition

theorem validName_eq_true {name : List Char} (h : validName name = true) :
    Path.blankPiece name = false ∧ name ≠ ['.', '.'] ∧ '/' ∉ name := by
  simp only [validName, Bool.and_eq_true, Bool.not_eq_true', bne_iff_ne, ne_eq,
    List.contains_eq_mem, decide_eq_false_iff_not] at h
  exact ⟨h.1.1.1.1, h.1.1.1.2, h.1.1.2⟩

namespace Path

theorem pieces_eq_singleton {piece : List Char} (h : '/' ∉ piece) : pieces piece = [piece] := by
  induction piece with
  | nil => rfl
  | cons c piece ih =>
    have hc : c ≠ '/' := fun heq => h (by simp [heq])
    rw [pieces, if_neg hc, ih fun hmem => h (List.mem_cons_of_mem c hmem)]

theorem pieces_append_slash {piece : List Char} (h : '/' ∉ piece) (rest : List Char) :
    pieces (piece ++ '/' :: rest) = piece :: pieces rest := by
  induction piece with
  | nil => simp [pieces]
  | cons c piece ih =>
    have hc : c ≠ '/' := fun heq => h (by simp [heq])
    rw [List.cons_append, pieces, if_neg hc, ih fun hmem => h (List.mem_cons_of_mem c hmem)]

theorem joinPieces_cons_cons (p q : List Char) (ps : List (List Char)) :
    joinPieces (p :: q :: ps) = p ++ '/' :: joinPieces (q :: ps) := by
  simp [joinPieces, List.intercalate]

/-- Pieces without slashes are those of their text. -/
theorem pieces_joinPieces {ps : List (List Char)} (hne : ps ≠ []) (h : ∀ p ∈ ps, '/' ∉ p) :
    pieces (joinPieces ps) = ps := by
  induction ps with
  | nil => exact absurd rfl hne
  | cons p ps ih =>
    have hp : '/' ∉ p := h p (by simp)
    cases ps with
    | nil => simpa [joinPieces, List.intercalate] using pieces_eq_singleton hp
    | cons q qs =>
      have hrest := ih (by simp) fun r hr => h r (List.mem_cons_of_mem p hr)
      rw [joinPieces_cons_cons, pieces_append_slash hp, hrest]

/-- The text of pieces begins with the text of the first of them. -/
theorem exists_joinPieces_append (ps qs : List (List Char)) :
    ∃ rest, joinPieces (ps ++ qs) = joinPieces ps ++ rest := by
  induction ps with
  | nil => exact ⟨joinPieces qs, rfl⟩
  | cons p ps ih =>
    obtain ⟨rest, hrest⟩ := ih
    cases ps with
    | nil =>
      cases qs with
      | nil => exact ⟨[], by simp⟩
      | cons q qs => exact ⟨'/' :: joinPieces (q :: qs), by simp [joinPieces, List.intercalate]⟩
    | cons r ps =>
      refine ⟨rest, ?_⟩
      rw [List.cons_append, List.cons_append, joinPieces_cons_cons, joinPieces_cons_cons,
        ← List.cons_append, hrest, List.append_assoc, List.cons_append]

theorem mem_joinPieces {ps : List (List Char)} {c : Char} (h : c ∈ joinPieces ps) :
    c = '/' ∨ ∃ p ∈ ps, c ∈ p := by
  induction ps with
  | nil => simp [joinPieces, List.intercalate] at h
  | cons p ps ih =>
    cases ps with
    | nil => exact .inr ⟨p, by simp, by simpa [joinPieces, List.intercalate] using h⟩
    | cons q qs =>
      rw [joinPieces_cons_cons] at h
      rcases List.mem_append.mp h with h | h
      · exact .inr ⟨p, by simp, h⟩
      · rcases List.mem_cons.mp h with h | h
        · exact .inl h
        · rcases ih h with h | ⟨r, hr, hc⟩
          · exact .inl h
          · exact .inr ⟨r, List.mem_cons_of_mem p hr, hc⟩

theorem filterMap_ofPiece?_eq_map {l : Location} (h : ∀ name ∈ l, validName name = true) :
    l.filterMap Component.ofPiece? = l.map .name := by
  induction l with
  | nil => rfl
  | cons name l ih =>
    obtain ⟨hblank, hup, -⟩ := validName_eq_true (h name (by simp))
    have hname : Component.ofPiece? name = some (.name name) := by
      simp [Component.ofPiece?, hblank, hup]
    rw [List.filterMap_cons_some hname, List.map_cons,
      ih fun n hn => h n (List.mem_cons_of_mem name hn)]

/-- The components of the path of a location are its names. -/
theorem components_path {l : Location} (h : ∀ name ∈ l, validName name = true) :
    l.path.components = .root :: l.map .name := by
  have hbody : l.path.body = pieces (joinPieces l) := by
    simp [body, anchor, Location.path, pieces]
  have hpieces : (pieces (joinPieces l)).filterMap Component.ofPiece? = l.map .name := by
    cases l with
    | nil => rfl
    | cons name l =>
      rw [pieces_joinPieces (by simp) fun n hn => (validName_eq_true (h n hn)).2.2,
        filterMap_ofPiece?_eq_map h]
  rw [components, hbody, hpieces]
  rfl

/-- The path of a location above another one is no longer. -/
theorem fits_of_prefix {l m : Location} (h : l <+: m) (hm : m.path.Fits) : l.path.Fits := by
  obtain ⟨more, rfl⟩ := h
  obtain ⟨rest, hrest⟩ := exists_joinPieces_append l more
  have htext : (Location.path (l ++ more)).text = l.path.text ++ String.ofList rest := by
    rw [Path.text, Path.text, ← String.ofList_append, Location.path, Location.path, hrest]
    rfl
  unfold Fits at hm ⊢
  rw [htext, String.utf8ByteSize_append] at hm
  omega

/-- Locations whose paths have the same components are the same. -/
theorem location_eq_of_components {l m : Location} (hl : ∀ name ∈ l, validName name = true)
    (hm : ∀ name ∈ m, validName name = true) (h : l.path.components = m.path.components) : l = m := by
  rw [components_path hl, components_path hm, List.cons.injEq] at h
  exact List.map_inj_right (fun _ _ heq => Component.name.inj heq) |>.mp h.2

theorem trimEnd_eq {l : Location} (h : ∀ name ∈ l, validName name = true) : trimEnd l = l := by
  unfold trimEnd
  have hkept : l.reverse.dropWhile blankPiece = l.reverse := by
    cases hrev : l.reverse with
    | nil => rfl
    | cons name rest =>
      have hmem : name ∈ l := List.mem_reverse.mp (hrev ▸ List.mem_cons_self)
      rw [List.dropWhile_cons_of_neg (by simp [(validName_eq_true (h name hmem)).1])]
  rw [hkept, List.reverse_reverse]

/-- The directory of the path of a location is the path of the location above it. -/
theorem parent_path {l : Location} (hne : l ≠ []) (h : ∀ name ∈ l, validName name = true) :
    l.path.parent = Location.path l.dropLast := by
  have hbody : l.path.body = l := by
    have hpieces : l.path.body = pieces (joinPieces l) := by
      simp [body, anchor, Location.path, pieces]
    rw [hpieces, pieces_joinPieces hne fun n hn => (validName_eq_true (h n hn)).2.2]
  have habove : ∀ name ∈ l.dropLast, validName name = true :=
    fun n hn => h n (List.dropLast_subset l hn)
  unfold parent parent?
  rw [hbody, trimEnd_eq h]
  cases l with
  | nil => exact absurd rfl hne
  | cons name rest =>
    simp only [trimEnd_eq habove, Option.getD_some]
    rfl

end Path

namespace FileTree

variable {t : FileTree}

/-- The names on the way to anything that stands in a tree are valid. -/
theorem validName_of_entry {l : Location} {e : Entry} (h : t.entry? l = some e) :
    ∀ name ∈ l, validName name = true := by
  induction hlength : l.length generalizing l e with
  | zero => simp [List.length_eq_zero_iff.mp hlength]
  | succ n ih =>
    have hne : l ≠ [] := List.ne_nil_of_length_eq_add_one hlength
    have hlookup := h
    unfold entry? entryIn? at hlookup
    rw [if_neg hne] at hlookup
    obtain ⟨before, after, hes, -⟩ := List.lookup_eq_some_iff.mp hlookup
    obtain ⟨parent, name, hl, hname, hparent⟩ := t.nested (l, e) (by rw [hes]; simp)
    simp only at hl
    subst hl
    have hbelow := ih hparent (by simpa using hlength)
    intro piece hpiece
    rcases List.mem_append.mp hpiece with hpiece | hpiece
    · exact hbelow piece hpiece
    · rw [List.mem_singleton.mp hpiece]
      exact hname

theorem validName_of_settled {l : Location} (h : t.Settled l) : ∀ name ∈ l, validName name = true := by
  rcases h with h | ⟨content, h⟩ <;> exact validName_of_entry h

/-! ## Following canonical paths -/

/-- What is above something that stands in a tree is a directory. -/
theorem entry?_of_append {l m : Location} {e : Entry} (h : t.entry? (l ++ m) = some e) (hm : m ≠ []) :
    t.entry? l = some .directory := by
  induction m generalizing l e with
  | nil => exact absurd rfl hm
  | cons name m ih =>
    have hsplit : l ++ name :: m = (l ++ [name]) ++ m := by simp
    rw [hsplit] at h
    obtain ⟨f, hf⟩ : ∃ f, t.entry? (l ++ [name]) = some f := by
      by_cases hempty : m = []
      · exact ⟨e, by rwa [hempty, List.append_nil] at h⟩
      · exact ⟨_, ih h hempty⟩
    have habove := entry?_dropLast hf
    rwa [List.dropLast_concat] at habove

/-- The first of the names that lead to a file or a directory is that of a directory, or the only one. -/
theorem step_of_settled {next rest : Location} (h : t.Settled (next ++ rest)) :
    t.entry? next = some .directory ∨ rest = [] ∧ ∃ content, t.entry? next = some (.file content) := by
  by_cases hempty : rest = []
  · subst hempty
    rw [List.append_nil] at h
    rcases h with h | h
    · exact .inl h
    · exact .inr ⟨rfl, h⟩
  · rcases h with h | ⟨content, h⟩ <;> exact .inl (entry?_of_append h hempty)

/-- Names that lead to a file or a directory are followed to it. -/
theorem walk_eq_ok {follow : Location → List (List Char) → Except FileError Location}
    {here names : Location} (h : t.Settled (here ++ names)) :
    t.walk follow here names = .ok (here ++ names) := by
  induction names generalizing here with
  | nil => simp [walk]
  | cons name rest ih =>
    have hrest : here ++ name :: rest = (here ++ [name]) ++ rest := by simp
    rw [hrest] at h ⊢
    have hvalid := validName_of_settled h name (by simp)
    obtain ⟨hblank, hup, -⟩ := validName_eq_true hvalid
    have hshort : tooLong name = false := by
      simp only [validName, Bool.and_eq_true, Bool.not_eq_true'] at hvalid
      exact hvalid.2
    rw [walk, if_neg (by simp [hblank]), if_neg hup, if_neg (by simp [hshort])]
    rcases step_of_settled h with hnext | ⟨rfl, content, hnext⟩
    · simp only [hnext]
      exact ih h
    · simp [hnext]

/-- The path of a file or a directory leads to it. -/
theorem locate_path {l : Location} (h : t.Settled l) : t.locate l.path = .ok l := by
  have hvalid := validName_of_settled h
  have hnul : l.path.chars.contains '\x00' = false := by
    rw [List.contains_eq_mem, decide_eq_false_iff_not]
    intro hmem
    rcases List.mem_cons.mp hmem with hmem | hmem
    · cases hmem
    · rcases Path.mem_joinPieces hmem with hmem | ⟨name, hname, hc⟩
      · cases hmem
      · have hname := hvalid name hname
        simp [validName, hc] at hname
  have hpieces : t.resolve (maxLinks + 1) [] (Path.pieces l.path.chars) = .ok l := by
    show t.walk (t.resolve maxLinks) [] ([] :: Path.pieces (Path.joinPieces l)) = .ok l
    rw [walk, if_pos (show Path.blankPiece [] = true from rfl)]
    cases l with
    | nil => rfl
    | cons name rest =>
      rw [Path.pieces_joinPieces (by simp) fun n hn => (validName_eq_true (hvalid n hn)).2.2]
      exact @walk_eq_ok t _ [] _ h
  have hne : l.path.chars ≠ [] := by simp [Location.path]
  rw [locate, hnul, if_neg (by simp), if_neg hne]
  exact hpieces

/-! ## What is looked up on the way -/

theorem canonicalize_eq_ok_iff {p q : Path} :
    t.canonicalize p = .ok q ↔ t.Passes p ∧ ∃ l, t.locate p = .ok l ∧ q = l.path := by
  unfold canonicalize
  by_cases hpasses : t.Passes p
  · rw [if_pos hpasses]
    cases hl : t.locate p with
    | error e => simp [Except.map]
    | ok l => simp [Except.map, hpasses, eq_comm]
  · simp [hpasses]

/-- Valid names ask for no directory behind them. -/
theorem demanded_names {l names : Location} (h : ∀ name ∈ names, validName name = true) :
    demanded l names = [] := by
  unfold demanded
  rw [if_neg]
  rintro ⟨hne, hnext⟩
  cases names with
  | nil => exact hne rfl
  | cons name rest =>
    obtain ⟨hblank, hup, -⟩ := validName_eq_true (h name (by simp))
    simp [nextName?, hblank, hup] at hnext

/-- While names are followed to a file or a directory, the paths of the locations on the way are looked
up. -/
theorem prefix_of_mem_askedAlong {follow : Location → List (List Char) → List Path}
    {here names : Location} (h : t.Settled (here ++ names)) {q : Path}
    (hq : q ∈ t.askedAlong follow here names) :
    ∃ l : Location, l <+: here ++ names ∧ q = l.path := by
  induction names generalizing here with
  | nil => simp [askedAlong] at hq
  | cons name rest ih =>
    have hvalid := validName_of_settled h
    obtain ⟨hblank, hup, -⟩ := validName_eq_true (hvalid name (by simp))
    have hdemanded : demanded (here ++ [name]) rest = [] :=
      demanded_names fun n hn => hvalid n (by simp [hn])
    have hrest : here ++ name :: rest = (here ++ [name]) ++ rest := by simp
    rw [askedAlong, if_neg (by simp [hblank]), if_neg hup, hdemanded, List.mem_cons] at hq
    rw [hrest] at h ⊢
    rcases hq with rfl | hq
    · exact ⟨_, List.prefix_append .., rfl⟩
    rcases step_of_settled h with hnext | ⟨rfl, content, hnext⟩
    · rw [hnext] at hq
      exact ih h hq
    · simp [hnext, nextName?] at hq

/-- Where the path of a file or a directory fits, so do those on the way to it. -/
theorem passes_path {l : Location} (h : t.Settled l) (hfits : l.path.Fits) : t.Passes l.path := by
  intro q hq
  unfold asked at hq
  split at hq
  · simp at hq
  have hq : q ∈ t.askedAlong (t.askedThrough maxLinks) [] ([] :: Path.pieces (Path.joinPieces l)) := hq
  rw [askedAlong, if_pos (show Path.blankPiece [] = true from rfl)] at hq
  cases l with
  | nil => simp [Path.joinPieces, List.intercalate, Path.pieces, askedAlong, Path.blankPiece] at hq
  | cons name rest =>
    rw [Path.pieces_joinPieces (by simp) fun n hn =>
      (validName_eq_true (validName_of_settled h n hn)).2.2] at hq
    obtain ⟨m, hm, rfl⟩ := @prefix_of_mem_askedAlong t _ [] _ h _ hq
    exact Path.fits_of_prefix hm hfits

theorem canonicalize_path {l : Location} (h : t.Settled l) (hfits : l.path.Fits) :
    t.canonicalize l.path = .ok l.path :=
  canonicalize_eq_ok_iff.mpr ⟨passes_path h hfits, l, locate_path h, rfl⟩

theorem lookup_path {l : Location} (h : t.Settled l) (hfits : l.path.Fits) :
    t.lookup l.path = .ok l := by
  rw [lookup, if_pos hfits, locate_path h]

/-- A canonical path of a file is the path of its location. -/
theorem exists_file_of_canonicalFile? {p q : Path} (h : t.canonicalFile? p = some q) :
    ∃ (l : Location) (content : Bytes), q = l.path ∧ t.entry? l = some (.file content) ∧ q.Fits := by
  unfold canonicalFile? at h
  cases hc : t.canonicalize p with
  | error e =>
    rw [hc] at h
    cases h
  | ok r =>
    obtain ⟨-, l, hl, rfl⟩ := canonicalize_eq_ok_iff.mp hc
    have hsettled := settled_of_locate hl
    simp only [hc] at h
    split at h
    · next hfile =>
      cases h
      unfold isFile find? lookup at hfile
      by_cases hfits : l.path.Fits
      · rw [if_pos hfits, locate_path hsettled] at hfile
        rcases hsettled with hd | ⟨content, hf⟩
        · simp [hd] at hfile
        · exact ⟨l, content, rfl, hf, hfits⟩
      · simp [hfits] at hfile
    · cases h

/-- A canonical path of a file is canonical. -/
theorem canonicalize_of_canonicalFile? {p q : Path} (h : t.canonicalFile? p = some q) :
    t.canonicalize q = .ok q := by
  obtain ⟨l, content, rfl, hentry, hfits⟩ := exists_file_of_canonicalFile? h
  exact canonicalize_path (.inr ⟨content, hentry⟩) hfits

/-- A canonical path of a file has a last name. -/
theorem exists_fileName_of_canonicalFile? {p q : Path} (h : t.canonicalFile? p = some q) :
    ∃ name, q.fileName? = some name := by
  obtain ⟨l, content, rfl, hentry, -⟩ := exists_file_of_canonicalFile? h
  cases hlast : l.getLast? with
  | none =>
    rw [List.getLast?_eq_none_iff.mp hlast] at hentry
    cases hentry
  | some name =>
    refine ⟨String.ofList name, ?_⟩
    rw [Path.fileName?, Path.components_path (validName_of_entry hentry), List.getLast?_cons,
      List.getLast?_map, hlast]
    rfl

/-- The directory of a canonical path of a file is the path of a directory. -/
theorem exists_directory_of_canonicalFile? {p q : Path} (h : t.canonicalFile? p = some q) :
    ∃ l : Location, q.parent = l.path ∧ t.entry? l = some .directory := by
  obtain ⟨l, content, rfl, hentry, -⟩ := exists_file_of_canonicalFile? h
  have hne : l ≠ [] := by
    rintro rfl
    cases hentry
  exact ⟨l.dropLast, Path.parent_path hne (validName_of_entry hentry), entry?_dropLast hentry⟩

/-- The directory of a canonical path of a file is a directory, which the tree finds by its path. -/
theorem isDirectory_parent {p q : Path} (h : t.canonicalFile? p = some q) :
    t.isDirectory q.parent = true ∧ t.canonicalize q.parent = .ok q.parent := by
  obtain ⟨l, content, rfl, hentry, hlimit⟩ := exists_file_of_canonicalFile? h
  have hne : l ≠ [] := by
    rintro rfl
    cases hentry
  have habove := entry?_dropLast hentry
  have hfits := Path.fits_of_prefix (List.dropLast_prefix l) hlimit
  rw [Path.parent_path hne (validName_of_entry hentry)]
  refine ⟨?_, canonicalize_path (.inl habove) hfits⟩
  unfold isDirectory find?
  rw [lookup_path (.inl habove) hfits]
  simp only [habove]

/-- Canonical paths that agree are equal. -/
theorem canonicalFile?_eq_of_agrees {p q p' q' : Path} (hp : t.canonicalFile? p = some p')
    (hq : t.canonicalFile? q = some q') (h : p'.agrees q' = true) : p' = q' := by
  obtain ⟨l, content, rfl, hl, -⟩ := exists_file_of_canonicalFile? hp
  obtain ⟨m, content', rfl, hm, -⟩ := exists_file_of_canonicalFile? hq
  rw [Path.location_eq_of_components (validName_of_entry hl) (validName_of_entry hm) (beq_iff_eq.mp h)]

/-- The directory of a canonical path of a file agrees with no canonical path of a file. -/
theorem not_agrees_parent {p q p' q' : Path} (h : t.canonicalFile? p = some q)
    (h' : t.canonicalFile? p' = some q') : q.parent.agrees q' = false := by
  obtain ⟨l, hl, habove⟩ := exists_directory_of_canonicalFile? h
  obtain ⟨m, content', rfl, hentry', -⟩ := exists_file_of_canonicalFile? h'
  rw [hl]
  refine Bool.eq_false_iff.mpr fun hagrees => ?_
  have hsame := Path.location_eq_of_components (validName_of_entry habove)
    (validName_of_entry hentry') (beq_iff_eq.mp hagrees)
  rw [← hsame, habove] at hentry'
  cases hentry'

end FileTree

end BuildComposition
