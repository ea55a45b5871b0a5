import BuildComposition.Proofs.FileTree.Canonical

/-!
# Components of joined and stripped paths

Joining, stripping and taking the directory work on the text of a path.  What they do to its components is
what one expects of paths: a relative path adds its names behind those of the other one, stripping takes
components away at the front, and joining puts them back.

## Main definitions

* `Path.names`: what the pieces of a path name, without its beginning

## Main results

* `Path.components_join`: a relative path adds its names
* `Path.stripBase?_eq_none_iff`, `Path.components_of_stripBase?`: what stripping leaves
* `Path.isAbsolute_parent`: the directory of an absolute path with a last name is absolute
-/

namespace BuildComposition

namespace Path

/-! ## Pieces -/

theorem pieces_append (a b : List Char) : pieces (a ++ '/' :: b) = pieces a ++ pieces b := by
  induction a with
  | nil => simp [pieces]
  | cons c a ih =>
    rw [List.cons_append, pieces, pieces, ih]
    split
    · rfl
    · cases hpieces : pieces a with
      | nil => exact absurd hpieces (pieces_ne_nil a)
      | cons p ps => rfl

theorem slash_not_mem_piece {cs piece : List Char} (h : piece ∈ pieces cs) : '/' ∉ piece := by
  induction cs generalizing piece with
  | nil =>
    rw [List.mem_singleton.mp h]
    simp
  | cons c cs ih =>
    rw [pieces] at h
    split at h
    · rcases List.mem_cons.mp h with rfl | h
      · simp
      · exact ih h
    · next hc =>
      cases hpieces : pieces cs with
      | nil => exact absurd hpieces (pieces_ne_nil cs)
      | cons p ps =>
        rw [hpieces] at h ih
        rcases List.mem_cons.mp h with rfl | h
        · exact fun hmem => (List.mem_cons.mp hmem).elim (fun heq => hc heq.symm) (ih (by simp))
        · exact ih (List.mem_cons_of_mem p h)

theorem ofPiece?_eq_none_iff {piece : List Char} :
    Component.ofPiece? piece = none ↔ blankPiece piece = true := by
  unfold Component.ofPiece?
  split
  · next h => simp [h]
  · next h => split <;> simp [h]

theorem filterMap_dropWhile_blankPiece (ps : List (List Char)) :
    (ps.dropWhile blankPiece).filterMap Component.ofPiece? = ps.filterMap Component.ofPiece? := by
  induction ps with
  | nil => rfl
  | cons p ps ih =>
    by_cases hp : blankPiece p = true
    · rw [List.dropWhile_cons_of_pos hp, ih, List.filterMap_cons_none (ofPiece?_eq_none_iff.mpr hp)]
    · rw [List.dropWhile_cons_of_neg hp]

theorem filterMap_trimEnd (ps : List (List Char)) :
    (trimEnd ps).filterMap Component.ofPiece? = ps.filterMap Component.ofPiece? := by
  rw [trimEnd, List.filterMap_reverse, filterMap_dropWhile_blankPiece, List.filterMap_reverse,
    List.reverse_reverse]

theorem filterMap_dropNamed (count : Nat) (ps : List (List Char)) :
    (dropNamed count ps).filterMap Component.ofPiece? =
      (ps.filterMap Component.ofPiece?).drop count := by
  induction ps generalizing count with
  | nil => cases count <;> simp [dropNamed]
  | cons p ps ih =>
    cases count with
    | zero => simp [dropNamed]
    | succ count =>
      rw [dropNamed]
      by_cases hp : blankPiece p = true
      · rw [if_pos hp, ih, List.filterMap_cons_none (ofPiece?_eq_none_iff.mpr hp)]
      · obtain ⟨c, hc⟩ := Option.ne_none_iff_exists'.mp fun h => hp (ofPiece?_eq_none_iff.mp h)
        rw [if_neg hp, ih, List.filterMap_cons_some hc, List.drop_succ_cons]

/-- What is left when blank pieces are taken away at both ends begins with a piece that names
something. -/
theorem blankPiece_head?_trimEnd {ps : List (List Char)} {p : List Char}
    (h : (trimEnd (ps.dropWhile blankPiece)).head? = some p) : blankPiece p = false := by
  obtain ⟨rest, hrest⟩ : trimEnd (ps.dropWhile blankPiece) <+: ps.dropWhile blankPiece := by
    rw [← List.reverse_suffix, trimEnd, List.reverse_reverse]
    exact List.dropWhile_suffix _
  have hhead : (ps.dropWhile blankPiece).head? = some p := by
    rw [← hrest, List.head?_append, h]
    rfl
  have hkept := List.head?_dropWhile_not blankPiece ps
  rwa [hhead] at hkept

theorem mem_of_mem_trimEnd {ps : List (List Char)} {p : List Char} (h : p ∈ trimEnd ps) : p ∈ ps :=
  List.mem_reverse.mp ((List.dropWhile_sublist _).mem (List.mem_reverse.mp h))

theorem mem_of_mem_dropNamed {count : Nat} {ps : List (List Char)} {p : List Char}
    (h : p ∈ dropNamed count ps) : p ∈ ps := by
  induction ps generalizing count with
  | nil => cases count <;> simp [dropNamed] at h
  | cons q ps ih =>
    cases count with
    | zero => exact h
    | succ count =>
      rw [dropNamed] at h
      split at h <;> exact List.mem_cons_of_mem q (ih h)

/-! ## Names -/

/-- What the pieces of a path name; its beginning is not among them. -/
def names (p : Path) : List Component := (pieces p.chars).filterMap Component.ofPiece?

theorem here_not_mem_names (p : Path) : Component.here ∉ p.names := by
  intro h
  obtain ⟨piece, -, hpiece⟩ := List.mem_filterMap.mp h
  unfold Component.ofPiece? at hpiece
  split at hpiece
  · cases hpiece
  · split at hpiece <;> cases hpiece

theorem root_not_mem_names (p : Path) : Component.root ∉ p.names := by
  intro h
  obtain ⟨piece, -, hpiece⟩ := List.mem_filterMap.mp h
  unfold Component.ofPiece? at hpiece
  split at hpiece
  · cases hpiece
  · split at hpiece <;> cases hpiece

/-- A path that begins at the root or with a dot begins with a piece that names nothing. -/
theorem exists_blank_of_anchor {p : Path} (h : p.anchor ≠ .none) :
    ∃ piece ps, pieces p.chars = piece :: ps ∧ blankPiece piece = true := by
  obtain ⟨cs⟩ := p
  unfold anchor at h
  split at h
  · next rest _ => exact ⟨[], pieces rest, by simp_all [pieces], rfl⟩
  · next hcs => exact ⟨['.'], [], by simp_all [pieces], rfl⟩
  · next rest hcs =>
    obtain rfl : cs = ['.'] ++ '/' :: rest := hcs
    exact ⟨['.'], pieces rest, pieces_append ['.'] rest, rfl⟩
  · exact absurd rfl h

theorem filterMap_body (p : Path) : p.body.filterMap Component.ofPiece? = p.names := by
  unfold body names
  split
  · rfl
  · next h =>
    obtain ⟨piece, ps, hpieces, hblank⟩ := exists_blank_of_anchor h
    rw [hpieces, List.tail_cons, List.filterMap_cons_none (ofPiece?_eq_none_iff.mpr hblank)]

theorem components_eq (p : Path) : p.components = p.anchor.components ++ p.names := by
  rw [components, filterMap_body]

theorem names_eq_components {p : Path} (h : p.anchor = .none) : p.names = p.components := by
  rw [components_eq, h]
  rfl

theorem slash_not_mem_body {p : Path} {piece : List Char} (h : piece ∈ p.body) : '/' ∉ piece := by
  unfold body at h
  split at h
  · exact slash_not_mem_piece h
  · exact slash_not_mem_piece (List.mem_of_mem_tail h)

theorem anchor_singleton (c : Char) :
    anchor ⟨[c]⟩ = if c = '/' then .root else if c = '.' then .here else .none := by
  unfold anchor
  split <;> simp_all

/-- Two characters tell how a path begins. -/
theorem anchor_cons_cons (c d : Char) (cs : List Char) :
    anchor ⟨c :: d :: cs⟩ =
      if c = '/' then .root else if c = '.' ∧ d = '/' then .here else .none := by
  unfold anchor
  split <;> simp_all

/-! ## Absolute paths -/

theorem isAbsolute_iff {p : Path} : p.isAbsolute = true ↔ p.anchor = .root := by
  simp [isAbsolute]

theorem isAbsolute_iff_mem {p : Path} : p.isAbsolute = true ↔ Component.root ∈ p.components := by
  have hnames := root_not_mem_names p
  rw [components_eq]
  cases hanchor : p.anchor <;> simp [isAbsolute, hanchor, Anchor.components, hnames]

theorem not_isAbsolute_iff {p : Path} : p.isAbsolute = false ↔ Component.root ∉ p.components := by
  rw [← isAbsolute_iff_mem, Bool.not_eq_true]

theorem here_not_mem_components {p : Path} (h : p.anchor ≠ .here) : Component.here ∉ p.components := by
  have hnames := here_not_mem_names p
  rw [components_eq]
  cases hanchor : p.anchor <;> simp_all [Anchor.components]

theorem chars_ne_nil_of_isAbsolute {p : Path} (h : p.isAbsolute = true) : p.chars ≠ [] := by
  obtain ⟨cs⟩ := p
  rintro rfl
  cases h

/-- The directory of an absolute path with a last name is absolute. -/
theorem isAbsolute_parent {p : Path} (h : p.isAbsolute = true) (hname : p.fileName?.isSome = true) :
    p.parent.isAbsolute = true := by
  have hanchor := isAbsolute_iff.mp h
  have hnames : p.names ≠ [] := by
    intro hnil
    rw [fileName?, components_eq, hanchor, hnil] at hname
    cases hname
  have hbody : trimEnd p.body ≠ [] := by
    intro hnil
    rw [← filterMap_body, ← filterMap_trimEnd, hnil] at hnames
    exact hnames rfl
  unfold parent parent?
  split
  · next hnil => exact absurd hnil hbody
  · rw [hanchor]
    rfl

theorem isAbsolute_of_components {p q : Path} (hp : p.isAbsolute = true)
    (h : p.components <+: q.components) : q.isAbsolute = true := by
  rw [isAbsolute_iff_mem] at hp ⊢
  exact h.subset hp

/-! ## Joining -/

theorem join_of_isAbsolute (p : Path) {q : Path} (h : q.isAbsolute = true) : p.join q = q := by
  rw [join, if_pos h]

section

variable {p q : Path} (hq : q.isAbsolute = false)

include hq

theorem names_join : (p.join q).names = p.names ++ q.names := by
  obtain ⟨cs⟩ := p
  obtain ⟨ds⟩ := q
  rw [join, if_neg (by simp [hq])]
  unfold names
  split
  · next h =>
    rcases h with rfl | h
    · simp [pieces, Component.ofPiece?, blankPiece]
    · -- the slash that is there already ends the last piece, behind which there is an empty one
      obtain ⟨front, rfl⟩ : ∃ front, cs = front ++ ['/'] := List.getLast?_eq_some_iff.mp h
      have hchars : front ++ ['/'] ++ ds = front ++ '/' :: ds := by simp
      rw [hchars, pieces_append, pieces_append]
      simp [pieces, Component.ofPiece?, blankPiece]
  · rw [pieces_append, List.filterMap_append]

theorem anchor_join (hp : p.chars ≠ []) : (p.join q).anchor = p.anchor := by
  obtain ⟨cs⟩ := p
  rw [join, if_neg (by simp [hq])]
  rcases cs with - | ⟨c, - | ⟨d, cs⟩⟩
  · exact absurd rfl hp
  · -- only behind a slash is no other one put
    split
    · next h =>
      obtain rfl : c = '/' := by simpa using h
      rfl
    · show anchor ⟨c :: '/' :: q.chars⟩ = _
      rw [anchor_cons_cons, anchor_singleton]
      simp
  · split <;> exact (anchor_cons_cons c d _).trans (anchor_cons_cons c d cs).symm

/-- A relative path adds its names. -/
theorem components_join (hp : p.chars ≠ []) : (p.join q).components = p.components ++ q.names := by
  rw [components_eq, components_eq, anchor_join hq hp, names_join hq, List.append_assoc]

theorem chars_join_ne_nil (hne : q.chars ≠ []) : (p.join q).chars ≠ [] := by
  rw [join, if_neg (by simp [hq])]
  split <;> simp [hne]

theorem nil_join : Path.join ⟨[]⟩ q = q := by
  rw [join, if_neg (by simp [hq]), if_pos (.inl rfl)]
  rfl

/-- A relative path does not change where the path begins. -/
theorem isAbsolute_join : (p.join q).isAbsolute = p.isAbsolute := by
  by_cases hp : p.chars = []
  · obtain rfl : p = ⟨[]⟩ := by
      cases p
      exact congrArg _ hp
    rw [nil_join hq, hq]
    rfl
  · rw [isAbsolute, anchor_join hq hp]
    rfl

/-- Behind a path that is not empty, the beginning of a relative path names nothing. -/
theorem components_join_eq : (p.join q).components =
    (if p.chars = [] then q.anchor.components else p.components) ++ q.names := by
  split
  · next hp =>
    obtain rfl : p = ⟨[]⟩ := by
      cases p
      exact congrArg _ hp
    rw [nil_join hq, components_eq]
  · next hp => exact components_join hq hp

end

/-! ## Stripping -/

/-- Pieces without slashes, the first of which names something, spell a relative path of their names. -/
theorem anchor_spell_none {ps : List (List Char)} (hslash : ∀ p ∈ ps, '/' ∉ p)
    (hfirst : ∀ p ∈ ps.head?, blankPiece p = false) : (spell .none ps).anchor = .none := by
  rcases ps with - | ⟨p, ps⟩
  · rfl
  have hp := hslash p (by simp)
  have hnamed := hfirst p rfl
  obtain ⟨rest, hrest⟩ : ∃ rest, joinPieces (p :: ps) = p ++ rest := by
    cases ps with
    | nil => exact ⟨[], by simp [joinPieces, List.intercalate]⟩
    | cons q qs => exact ⟨_, joinPieces_cons_cons p q qs⟩
  show anchor ⟨joinPieces (p :: ps)⟩ = .none
  rw [hrest]
  rcases p with - | ⟨c, - | ⟨d, p⟩⟩
  · cases hnamed
  · have hslash : c ≠ '/' := fun heq => hp (by simp [heq])
    have hdot : c ≠ '.' := fun heq => by simp [heq, blankPiece] at hnamed
    cases rest with
    | nil => exact (anchor_singleton c).trans (by simp [hslash, hdot])
    | cons d rest => exact (anchor_cons_cons c d rest).trans (by simp [hslash, hdot])
  · have hslash : c ≠ '/' := fun heq => hp (by simp [heq])
    have hslash' : d ≠ '/' := fun heq => hp (by simp [heq])
    exact (anchor_cons_cons c d (p ++ rest)).trans (by simp [hslash, hslash'])

theorem names_spell_none {ps : List (List Char)} (hslash : ∀ p ∈ ps, '/' ∉ p) :
    (spell .none ps).names = ps.filterMap Component.ofPiece? := by
  cases ps with
  | nil => rfl
  | cons p ps =>
    show (pieces (joinPieces (p :: ps))).filterMap _ = _
    rw [pieces_joinPieces (by simp) hslash]

theorem stripBase?_eq_none_iff {base p : Path} :
    stripBase? base p = none ↔ ¬base.components <+: p.components := by
  rw [stripBase?, ← List.isPrefixOf_iff_prefix]
  split
  · next h =>
    simp only [h, not_true_eq_false, iff_false]
    split <;> simp
  · next h => simp [h]

/-- What is left of a path begins with a name, if there is one, and its components are those behind the ones
of the base. -/
theorem components_of_stripBase? {base p rest : Path} (hbase : base.isAbsolute = true)
    (h : stripBase? base p = some rest) :
    rest.anchor = .none ∧ rest.components = p.components.drop base.components.length := by
  have hlength : base.components.length = base.names.length + 1 := by
    rw [components_eq, isAbsolute_iff.mp hbase]
    simp [Anchor.components]
  unfold stripBase? at h
  split at h
  · next hfront =>
    rw [hlength] at h
    have hanchor := isAbsolute_iff.mp (isAbsolute_of_components hbase (List.isPrefixOf_iff_prefix.mp hfront))
    have hcount : base.names.length + 1 - p.anchor.components.length = base.names.length := by
      simp [hanchor, Anchor.components]
    have h : some (spell .none (trimEnd ((dropNamed (base.names.length + 1 -
        p.anchor.components.length) p.body).dropWhile blankPiece))) = some rest := h
    rw [hcount] at h
    obtain rfl := (Option.some.inj h).symm
    have hslash : ∀ piece ∈ trimEnd ((dropNamed base.names.length p.body).dropWhile blankPiece),
        '/' ∉ piece := fun piece hpiece =>
      slash_not_mem_body (mem_of_mem_dropNamed
        ((List.dropWhile_sublist _).mem (mem_of_mem_trimEnd hpiece)))
    have hrelative := anchor_spell_none hslash fun _ hpiece => blankPiece_head?_trimEnd hpiece
    refine ⟨hrelative, ?_⟩
    calc (spell .none _).components
        = (trimEnd ((dropNamed base.names.length p.body).dropWhile blankPiece)).filterMap
            Component.ofPiece? := by
          rw [components_eq, hrelative, names_spell_none hslash]
          rfl
      _ = p.names.drop base.names.length := by
          rw [filterMap_trimEnd, filterMap_dropWhile_blankPiece, filterMap_dropNamed, filterMap_body]
      _ = p.components.drop base.components.length := by
          rw [hlength, components_eq p, hanchor]
          rfl
  · cases h

end Path

end BuildComposition
