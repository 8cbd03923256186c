/-
Plainly spelled paths, and paths as they are seen from a root.

A path is plain if its text is its names with single separators between them,
and perhaps one in front: no name is empty, `.` or `..`. Plain paths that have
the same components are equal (`Plain.eq_of_components`), so among them the
spelling does not matter.

A path can be seen from a root in two steps, joining it to the root and taking
the root away again. Taking away counts the components of the root and drops as
many pieces of the spelling, so it does not matter how the root is spelled: a
plain path comes back as it was (`relativeTo?_join`). What is left of a plain
path that lies below the root is plain as well (`Plain.relativeTo?`).
-/
import CodeMap.Path
import Mathlib.Data.List.Basic
import Mathlib.Tactic.SplitIfs

namespace CodeMap.Path

-- =================================================================== pieces

/-- Splitting at separators is splitting at a character. -/
theorem splitAtSlash_eq (cs : List Char) : splitAtSlash cs = cs.splitOn '/' := by
  induction cs with
  | nil => rfl
  | cons c rest ih =>
      rw [splitAtSlash, ih, List.splitOn_cons_eq_if_modifyHead]
      cases h : rest.splitOn '/' with
      | nil => exact absurd h (List.splitOn_ne_nil '/' rest)
      | cons piece pieces => simp [List.modifyHead]

/-- Joining puts a separator between each two pieces. -/
theorem toList_joinPieces (pieces : List (List Char)) :
    (joinPieces pieces).toList = ['/'].intercalate pieces := by
  have hpieces : (pieces.map String.ofList).map String.toList = pieces := by
    rw [List.map_map]
    exact List.map_id'' (fun piece => String.toList_ofList) pieces
  rw [joinPieces, String.toList_intercalate, hpieces]
  rfl

/-- A separator cuts a spelling in two. -/
theorem splitAtSlash_append (front rest : List Char) :
    splitAtSlash (front ++ '/' :: rest) = splitAtSlash front ++ splitAtSlash rest := by
  simp only [splitAtSlash_eq, List.splitOn_append_cons_self]

/-- Only empty pieces and single dots stand for no component. -/
theorem pieceComponent_eq_none_iff {piece : List Char} :
    pieceComponent piece = none ↔ piece = [] ∨ piece = ['.'] := by
  unfold pieceComponent
  split_ifs with hempty hhere hup <;> simp [*]

/-- No piece stands for the root or for the directory that it stands in. -/
theorem mem_names_ne_root {pieces : List (List Char)} :
    ∀ c ∈ pieces.filterMap pieceComponent, c ≠ .root ∧ c ≠ .here := by
  intro c hc
  obtain ⟨piece, -, hpiece⟩ := List.mem_filterMap.mp hc
  unfold pieceComponent at hpiece
  split_ifs at hpiece <;> cases hpiece <;> exact ⟨nofun, nofun⟩

-- ============================================================ dropped pieces

/-- Pieces that stand for no component go with those that are dropped. -/
theorem dropPieces_cons_of_none {piece : List Char} (h : pieceComponent piece = none) (n : Nat)
    (rest : List (List Char)) : dropPieces n (piece :: rest) = dropPieces n rest := by
  cases n with
  | zero =>
      rw [dropPieces, dropPieces, trimSeparators, if_pos (pieceComponent_eq_none_iff.mp h)]
  | succ n =>
      rw [dropPieces, h]
      rfl

/-- A piece that stands for a component is dropped in its place. -/
theorem dropPieces_cons_of_some {piece : List Char} (h : pieceComponent piece ≠ none) (n : Nat)
    (rest : List (List Char)) : dropPieces (n + 1) (piece :: rest) = dropPieces n rest := by
  rw [dropPieces, if_pos (Option.isSome_iff_ne_none.mpr h)]

/-- As many pieces are dropped as stand for the components in front. -/
theorem dropPieces_append (front rest : List (List Char)) :
    dropPieces (front.filterMap pieceComponent).length (front ++ rest) = trimSeparators rest := by
  induction front with
  | nil => exact dropPieces.eq_1 rest
  | cons piece front ih =>
      rw [List.cons_append]
      cases h : pieceComponent piece with
      | none => rw [List.filterMap_cons_none h, dropPieces_cons_of_none h, ih]
      | some c =>
          rw [List.filterMap_cons_some h, List.length_cons,
            dropPieces_cons_of_some (by rw [h]; nofun), ih]

-- =================================================================== names

/-- A piece that names something in a directory. -/
structure IsName (piece : List Char) : Prop where
  slash : '/' ∉ piece
  empty : piece ≠ []
  here : piece ≠ ['.']
  up : piece ≠ ['.', '.']

instance (piece : List Char) : Decidable (IsName piece) :=
  decidable_of_iff ('/' ∉ piece ∧ piece ≠ [] ∧ piece ≠ ['.'] ∧ piece ≠ ['.', '.'])
    ⟨fun ⟨slash, empty, here, up⟩ => ⟨slash, empty, here, up⟩,
      fun ⟨slash, empty, here, up⟩ => ⟨slash, empty, here, up⟩⟩

/-- A name stands for itself. -/
theorem IsName.component {piece : List Char} (h : IsName piece) :
    pieceComponent piece = some (.name (String.ofList piece)) := by
  unfold pieceComponent
  rw [if_neg h.empty, if_neg h.here, if_neg h.up]

/-- The components that names stand for. -/
def namesOf (names : List (List Char)) : List Component :=
  names.map fun name => .name (String.ofList name)

/-- Names are told apart by their components. -/
theorem namesOf_injective {names names' : List (List Char)} (h : namesOf names = namesOf names') :
    names = names' := by
  refine List.map_injective_iff.mpr (fun name name' hname => ?_) h
  exact String.ofList_injective (Component.name.inj hname)

section Names

variable {names : List (List Char)} (hnames : ∀ name ∈ names, IsName name)

include hnames

/-- Every name has a component. -/
theorem filterMap_names : names.filterMap pieceComponent = namesOf names := by
  rw [namesOf, ← List.filterMap_eq_map]
  exact List.filterMap_congr fun name hname => (hnames name hname).component

/-- No names are written like a single empty piece. -/
theorem splitAtSlash_joinPieces :
    splitAtSlash (joinPieces names).toList = if names = [] then [[]] else names := by
  rw [splitAtSlash_eq, toList_joinPieces]
  split_ifs with hnone
  · rw [hnone]
    rfl
  · exact List.splitOn_intercalate '/' (fun name hname => (hnames name hname).slash) hnone

/-- The pieces of joined names stand for the names. -/
theorem filterMap_splitAtSlash_joinPieces :
    (splitAtSlash (joinPieces names).toList).filterMap pieceComponent = namesOf names := by
  rw [splitAtSlash_joinPieces hnames]
  split_ifs with hnone
  · rw [hnone]
    rfl
  · exact filterMap_names hnames

/-- Names have no separators in front to be trimmed. -/
theorem trimSeparators_names : trimSeparators names = names := by
  cases names with
  | nil => rfl
  | cons name rest =>
      have hname := hnames name List.mem_cons_self
      exact if_neg fun h => h.elim hname.empty hname.here

/-- Names have no separators at the end to be trimmed. -/
theorem trimEnd_names : trimEnd names = names := by
  have hreverse : ∀ name ∈ names.reverse, IsName name :=
    fun name hname => hnames name (List.mem_reverse.mp hname)
  rw [trimEnd, trimSeparators_names hreverse, List.reverse_reverse]

/-- Names are dropped one by one. -/
theorem dropPieces_names (n : Nat) : dropPieces n names = names.drop n := by
  induction n generalizing names with
  | zero => rw [dropPieces, trimSeparators_names hnames, List.drop_zero]
  | succ n ih =>
      cases names with
      | nil => rfl
      | cons name rest =>
          have hname := (hnames name List.mem_cons_self).component
          rw [dropPieces_cons_of_some (by rw [hname]; nofun), List.drop_succ_cons,
            ih fun name' h => hnames name' (List.mem_cons_of_mem name h)]

/-- An empty piece in front, and a single empty piece in place of no names, are
no names to be dropped. -/
theorem dropPieces_splitAtSlash (n : Nat) :
    dropPieces n (splitAtSlash (joinPieces names).toList) = names.drop n := by
  rw [splitAtSlash_joinPieces hnames]
  split_ifs with hnone
  · rw [hnone, List.drop_nil, dropPieces_cons_of_none rfl]
    cases n <;> rfl
  · exact dropPieces_names hnames n

end Names

-- ============================================================== plain paths

/-- The spelling has neither doubled nor trailing separators, and neither `.`
nor `..` in it. -/
def Plain (p : Path) : Prop :=
  ∃ names : List (List Char), (∀ name ∈ names, IsName name)
    ∧ (p.text = joinPieces names ∨ p.text = "/" ++ joinPieces names)

section Components

variable {p : Path} {names : List (List Char)} (hnames : ∀ name ∈ names, IsName name)

include hnames

/-- Joined names stand for the names. -/
theorem components_of_relative (h : p.text = joinPieces names) :
    p.components = namesOf names := by
  have hfilter := filterMap_splitAtSlash_joinPieces hnames
  have hpieces := splitAtSlash_joinPieces hnames
  unfold components
  rw [h]
  dsimp only
  rw [hfilter, hpieces]
  split_ifs with hnone
  · rfl
  · -- the first piece is a name
    cases names with
    | nil => exact absurd rfl hnone
    | cons name rest =>
        have hname := hnames name List.mem_cons_self
        split
        next heq => exact absurd (List.cons.inj heq).1 hname.empty
        next heq => exact absurd (List.cons.inj heq).1 hname.here
        next => rfl

/-- With a separator in front they stand for the names below the root. -/
theorem components_of_absolute (h : p.text = "/" ++ joinPieces names) :
    p.components = .root :: namesOf names := by
  have hfilter := filterMap_splitAtSlash_joinPieces hnames
  have hpieces : splitAtSlash p.text.toList
      = [] :: splitAtSlash (joinPieces names).toList := by
    rw [h, String.toList_append]
    exact splitAtSlash_append [] _
  unfold components
  dsimp only
  rw [hpieces, List.filterMap_cons_none rfl, hfilter]
  cases hrest : splitAtSlash (joinPieces names).toList with
  | nil => exact absurd (splitAtSlash_eq _ ▸ hrest) (List.splitOn_ne_nil '/' _)
  | cons piece rest => rfl

end Components

/-- A plain path has one spelling. -/
theorem Plain.eq_of_components {p q : Path} (hp : p.Plain) (hq : q.Plain)
    (h : p.components = q.components) : p = q := by
  obtain ⟨names, hnames, htext⟩ := hp
  obtain ⟨names', hnames', htext'⟩ := hq
  rw [Path.mk.injEq]
  rcases htext with htext | htext <;> rcases htext' with htext' | htext'
  · rw [components_of_relative hnames htext, components_of_relative hnames' htext'] at h
    rw [htext, htext', namesOf_injective h]
  · -- a name in front is no root in front
    rw [components_of_relative hnames htext, components_of_absolute hnames' htext'] at h
    cases names <;> cases h
  · rw [components_of_absolute hnames htext, components_of_relative hnames' htext'] at h
    cases names' <;> cases h
  · rw [components_of_absolute hnames htext, components_of_absolute hnames' htext'] at h
    rw [htext, htext', namesOf_injective (List.cons.inj h).2]

-- ==================================================================== roots

/-- An absolute path is spelled with a separator in front. -/
theorem isAbsolute_iff {p : Path} :
    p.isAbsolute = true ↔ ∃ piece rest, splitAtSlash p.text.toList = [] :: piece :: rest := by
  unfold isAbsolute components
  dsimp only
  constructor
  · intro h
    split at h
    next piece rest heq => exact ⟨piece, rest, heq⟩
    next => cases h
    next =>
      have hhead := List.mem_of_head? (beq_iff_eq.mp h)
      exact absurd rfl (mem_names_ne_root _ hhead).1
  · rintro ⟨piece, rest, heq⟩
    rw [heq]
    rfl

/-- An absolute path has at least its root. -/
theorem components_ne_nil {root : Path} (hroot : root.isAbsolute = true) :
    root.components ≠ [] := by
  intro hnil
  rw [isAbsolute, hnil] at hroot
  cases hroot

/-- The components of an absolute path: the root, and what the pieces stand for. -/
theorem components_of_isAbsolute {p : Path} (h : p.isAbsolute = true) :
    p.components = .root :: (splitAtSlash p.text.toList).filterMap pieceComponent := by
  obtain ⟨piece, rest, heq⟩ := isAbsolute_iff.mp h
  unfold components
  dsimp only
  rw [heq]

section Joining

variable {root p : Path}

/-- The spelling of a joined path: that of the root, and that of the path behind
it. -/
theorem exists_splitAtSlash_join (hroot : root.isAbsolute = true) (hp : p.isAbsolute = false) :
    ∃ front, splitAtSlash (root.join p).text.toList = front ++ splitAtSlash p.text.toList
      ∧ front.filterMap pieceComponent = (splitAtSlash root.text.toList).filterMap pieceComponent
      ∧ front.head? = some [] := by
  obtain ⟨piece, rest, hpieces⟩ := isAbsolute_iff.mp hroot
  have hnonempty : root.text ≠ "" := by
    intro hempty
    rw [hempty] at hpieces
    cases hpieces
  unfold join
  rw [hp, if_neg Bool.false_ne_true, if_neg hnonempty]
  split_ifs with hslash
  · -- the separator at the end of the root is that of the joint
    have hlast : root.text.toList = root.text.toList.dropLast ++ ['/'] :=
      (List.dropLast_append_getLast? '/' hslash).symm
    have hfront : splitAtSlash root.text.toList
        = splitAtSlash root.text.toList.dropLast ++ [[]] := by
      conv_lhs => rw [hlast]
      exact splitAtSlash_append _ []
    refine ⟨splitAtSlash root.text.toList.dropLast, ?_, ?_, ?_⟩
    · rw [String.toList_append, hlast, List.append_assoc, List.dropLast_concat]
      exact splitAtSlash_append _ _
    · rw [hfront, List.filterMap_append]
      exact (List.append_nil _).symm
    · rw [hfront] at hpieces
      cases hdrop : splitAtSlash root.text.toList.dropLast with
      | nil => exact absurd (splitAtSlash_eq _ ▸ hdrop) (List.splitOn_ne_nil '/' _)
      | cons first others =>
          rw [hdrop] at hpieces
          rw [(List.cons.inj hpieces).1]
          rfl
  · refine ⟨splitAtSlash root.text.toList, ?_, rfl, by rw [hpieces]; rfl⟩
    rw [String.toList_append, String.toList_append, List.append_assoc]
    exact splitAtSlash_append _ _

variable (hroot : root.isAbsolute = true) (hp : p.isAbsolute = false)

include hroot hp

/-- What is joined to a root is absolute. -/
theorem isAbsolute_join : (root.join p).isAbsolute = true := by
  obtain ⟨front, hsplit, -, hhead⟩ := exists_splitAtSlash_join hroot hp
  rw [isAbsolute_iff, hsplit]
  cases front with
  | nil => cases hhead
  | cons first others =>
      cases hhead
      cases hrest : splitAtSlash p.text.toList with
      | nil => exact absurd (splitAtSlash_eq _ ▸ hrest) (List.splitOn_ne_nil '/' _)
      | cons piece rest =>
          cases others with
          | nil => exact ⟨piece, rest, rfl⟩
          | cons second others => exact ⟨second, others ++ piece :: rest, rfl⟩

/-- The components of a joined path: those of the root, and what the pieces of the
path stand for. -/
theorem components_join : (root.join p).components
    = root.components ++ (splitAtSlash p.text.toList).filterMap pieceComponent := by
  obtain ⟨front, hsplit, hfront, -⟩ := exists_splitAtSlash_join hroot hp
  rw [components_of_isAbsolute (isAbsolute_join hroot hp), components_of_isAbsolute hroot, hsplit,
    List.filterMap_append, hfront, List.cons_append]

/-- For a plain path the latter are its components. -/
theorem Plain.components_join (hplain : p.Plain) :
    (root.join p).components = root.components ++ p.components := by
  obtain ⟨names, hnames, htext | htext⟩ := hplain
  · rw [Path.components_join hroot hp, components_of_relative hnames htext, htext,
      filterMap_splitAtSlash_joinPieces hnames]
  · rw [isAbsolute, components_of_absolute hnames htext] at hp
    cases hp

/-- A plain path that is joined to a root is seen from the root as it was. -/
theorem relativeTo?_join (hplain : p.Plain) : (root.join p).relativeTo? root = some p := by
  obtain ⟨front, hsplit, hfront, -⟩ := exists_splitAtSlash_join hroot hp
  have hbelow : root.components.isPrefixOf (root.join p).components = true := by
    rw [List.isPrefixOf_iff_prefix, components_join hroot hp]
    exact List.prefix_append _ _
  have hcount : (root.components.filter fun c => c != .root && c != .here)
      = front.filterMap pieceComponent := by
    rw [components_of_isAbsolute hroot, List.filter_cons_of_neg (by decide), hfront]
    refine List.filter_eq_self.mpr fun c hc => ?_
    simpa using mem_names_ne_root c hc
  have hrest : joinPieces (trimEnd (trimSeparators (splitAtSlash p.text.toList))) = p.text := by
    obtain ⟨names, hnames, htext | htext⟩ := hplain
    · have hdrop := dropPieces_splitAtSlash hnames 0
      rw [← htext, dropPieces, List.drop_zero] at hdrop
      rw [hdrop, trimEnd_names hnames, htext]
    · rw [isAbsolute, components_of_absolute hnames htext] at hp
      cases hp
  unfold relativeTo?
  rw [if_pos hbelow, if_neg (components_ne_nil hroot), hcount, hsplit]
  dsimp only
  rw [dropPieces_append, hrest]

end Joining

/-- A path that is seen from a root is not found below it. -/
theorem relativeTo?_of_relative {root p : Path} (hroot : root.isAbsolute = true)
    (hp : p.isAbsolute = false) : p.relativeTo? root = none := by
  unfold Path.relativeTo?
  rw [components_of_isAbsolute hroot]
  refine if_neg fun hprefix => ?_
  obtain ⟨rest, hrest⟩ := List.isPrefixOf_iff_prefix.mp hprefix
  rw [isAbsolute, ← hrest] at hp
  cases hp

/-- What is left of a plain path below a root is plain and seen from the root,
and its components follow those of the root. -/
theorem Plain.relativeTo? {p root seen : Path} (hplain : p.Plain) (hroot : root.isAbsolute = true)
    (hp : p.isAbsolute = true) (h : p.relativeTo? root = some seen) :
    seen.Plain ∧ seen.isAbsolute = false ∧ p.components = root.components ++ seen.components := by
  obtain ⟨names, hnames, htext⟩ := hplain
  have htext : p.text = "/" ++ joinPieces names := by
    refine htext.resolve_left fun hrelative => ?_
    rw [isAbsolute, components_of_relative hnames hrelative] at hp
    cases names <;> cases hp
  have hcomponents := components_of_absolute hnames htext
  have hpieces : splitAtSlash p.text.toList = [] :: splitAtSlash (joinPieces names).toList := by
    rw [htext, String.toList_append]
    exact splitAtSlash_append [] _
  have hbase := components_of_isAbsolute hroot
  -- the root has the first of the names below the separator in front
  generalize hfront : (splitAtSlash root.text.toList).filterMap pieceComponent = front at hbase
  have hcount : (root.components.filter fun c => c != .root && c != .here) = front := by
    rw [hbase, List.filter_cons_of_neg (by decide)]
    refine List.filter_eq_self.mpr fun c hc => ?_
    simpa using mem_names_ne_root c (hfront ▸ hc)
  have hrest : ∀ name ∈ names.drop front.length, IsName name :=
    fun name hname => hnames name (List.mem_of_mem_drop hname)
  unfold Path.relativeTo? at h
  rw [if_neg (components_ne_nil hroot)] at h
  split_ifs at h with hprefix
  rw [hcount, hpieces] at h
  dsimp only at h
  rw [dropPieces_cons_of_none rfl, dropPieces_splitAtSlash hnames, trimEnd_names hrest] at h
  obtain rfl := Option.some.inj h
  have hseen := components_of_relative (p := ⟨joinPieces (names.drop front.length)⟩) hrest rfl
  rw [hbase, hcomponents, List.isPrefixOf_iff_prefix, List.prefix_cons_inj] at hprefix
  refine ⟨⟨_, hrest, .inl rfl⟩, ?_, ?_⟩
  · rw [isAbsolute, hseen]
    cases names.drop front.length <;> rfl
  · rw [hcomponents, hbase, hseen, List.cons_append]
    have htake : front = (namesOf names).take front.length := List.prefix_iff_eq_take.mp hprefix
    conv_lhs => rw [← List.take_append_drop front.length (namesOf names), ← htake]
    rw [namesOf, namesOf, List.map_drop]

end CodeMap.Path
