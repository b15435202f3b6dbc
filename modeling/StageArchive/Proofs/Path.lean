import StageArchive.Arithmetic
import StageArchive.Path
/-!
# Paths that lead to the same place

Two paths are the same apart from parts that name nothing when they have the same key. A name that
is joined to a directory is added to the directory's key, and the parent of the result has the key
of the directory again, however the directory's path is written.
-/

namespace StageArchive.Path

/-- Splitting at slashes is splitting at a separator. -/
theorem split_eq_splitOn (characters : List Char) : split characters = characters.splitOn '/' := by
  induction characters with
  | nil => rfl
  | cons c rest ih =>
      rw [split, List.splitOn_cons_eq_if_modifyHead, ih]
      by_cases hslash : c = '/'
      · rw [if_pos hslash, if_pos (beq_iff_eq.mpr hslash)]
      · rw [if_neg hslash, if_neg (by simpa using hslash)]
        cases hsplit : rest.splitOn '/' with
        | nil => exact absurd hsplit (List.splitOn_ne_nil '/' rest)
        | cons part parts => rfl

/-- No part of a path has a slash. -/
theorem notMem_of_mem_split {characters part : List Char} (h : part ∈ split characters) :
    '/' ∉ part := by
  induction characters generalizing part with
  | nil =>
      rw [List.mem_singleton.mp h]
      exact List.not_mem_nil
  | cons c rest ih =>
      unfold split at h
      split at h
      · rcases List.mem_cons.mp h with rfl | hrest
        · exact List.not_mem_nil
        · exact ih hrest
      · rename_i hslash
        cases hsplit : split rest with
        | nil =>
            rw [hsplit] at h
            rw [List.mem_singleton.mp h]
            simpa using Ne.symm hslash
        | cons first parts =>
            rw [hsplit] at h ih
            rcases List.mem_cons.mp h with rfl | hparts
            · have hfirst := ih (List.mem_cons_self ..)
              simpa using ⟨Ne.symm hslash, hfirst⟩
            · exact ih (List.mem_cons_of_mem _ hparts)

/-- No part of a path has a slash. -/
theorem notMem_of_mem_parts {path : Path} {part : String} (h : part ∈ path.parts) :
    '/' ∉ part.toList := by
  obtain ⟨characters, hcharacters, rfl⟩ := List.mem_map.mp h
  rw [String.toList_ofList]
  exact notMem_of_mem_split hcharacters

/-- Every path has a part. -/
theorem parts_ne_nil (path : Path) : path.parts ≠ [] := by
  rw [parts, split_eq_splitOn]
  intro h
  exact List.splitOn_ne_nil '/' _ (List.map_eq_nil_iff.mp h)

/-- A slash separates the parts before it from those behind it. -/
theorem parts_append (first second : String) :
    Path.parts ⟨first ++ "/" ++ second⟩ = Path.parts ⟨first⟩ ++ Path.parts ⟨second⟩ := by
  have htext : (first ++ "/" ++ second).toList = first.toList ++ '/' :: second.toList := by
    rw [String.toList_append, String.toList_append, List.append_assoc]
    rfl
  rw [parts, parts, parts, ← List.map_append, split_eq_splitOn, split_eq_splitOn, split_eq_splitOn,
    htext, List.splitOn_append_cons_self]

/-- A path without slashes is its only part. -/
theorem parts_of_notMem {name : String} (h : '/' ∉ name.toList) : Path.parts ⟨name⟩ = [name] := by
  rw [parts, split_eq_splitOn, List.splitOn_eq_singleton h]
  exact congrArg (fun name => [name]) String.ofList_toList

/-- Parts between slashes are the parts of the path. -/
theorem parts_intercalate {names : List String} (hne : names ≠ [])
    (h : ∀ name ∈ names, '/' ∉ name.toList) : Path.parts ⟨"/".intercalate names⟩ = names := by
  have htexts : ∀ characters ∈ names.map String.toList, '/' ∉ characters := by
    intro characters hcharacters
    obtain ⟨name, hname, rfl⟩ := List.mem_map.mp hcharacters
    exact h name hname
  have hsplit := List.splitOn_intercalate '/' htexts (by simpa using hne)
  rw [parts, split_eq_splitOn, String.toList_intercalate]
  show (List.splitOn '/' (['/'].intercalate (names.map String.toList))).map String.ofList = names
  rw [hsplit, List.map_map]
  conv => rhs; rw [← List.map_id names]
  exact List.map_congr_left fun name _ => String.ofList_toList

/-- The anchor of a path with the given parts. -/
def anchorOf : List String → String
  | [] => ""
  | part :: others =>
    if part = "" ∧ others ≠ [] then "/" else if part = "." then "." else ""

/-- The parts of a path say what it is anchored at. -/
theorem anchor_eq (path : Path) : path.anchor = anchorOf path.parts := by
  have hparts : path.parts = (split path.text.toList).map String.ofList := rfl
  have habsolute : path.isAbsolute = (path.text.toList.head? == some '/') := rfl
  rw [anchor, habsolute, hparts]
  cases path.text.toList with
  | nil => rfl
  | cons c rest =>
      by_cases hslash : c = '/'
      · rw [hslash]
        have hothers : (split rest).map String.ofList ≠ [] := parts_ne_nil ⟨String.ofList rest⟩ ∘ by
          intro h
          rw [parts, String.toList_ofList, h]
        show "/" = anchorOf (String.ofList [] :: (split rest).map String.ofList)
        rw [anchorOf, if_pos ⟨rfl, hothers⟩]
      · have hfirst : ∃ part parts, split (c :: rest) = (c :: part) :: parts := by
          rw [split, if_neg hslash]
          cases split rest with
          | nil => exact ⟨[], [], rfl⟩
          | cons part parts => exact ⟨part, parts, rfl⟩
        obtain ⟨part, parts, hsplit⟩ := hfirst
        have hne : String.ofList (c :: part) ≠ "" := by
          intro h
          have hlist := congrArg String.toList h
          rw [String.toList_ofList] at hlist
          cases hlist
        have hrelative : ¬ ((c :: rest).head? == some '/') := by simpa using hslash
        rw [hsplit, List.map_cons, anchorOf, if_neg hrelative]
        simp only [hne, false_and, if_false, List.head?_cons, Option.some_beq_some, beq_iff_eq]

/-- Only the first of several parts says what a path is anchored at. -/
theorem anchorOf_append (part : String) (others : List String) (last : String) :
    anchorOf (part :: others ++ [last]) =
      if part = "" then "/" else if part = "." then "." else "" := by
  rw [List.cons_append, anchorOf]
  by_cases hpart : part = ""
  · rw [if_pos hpart, if_pos ⟨hpart, by simp⟩]
  · simp only [hpart, false_and, if_false]

/-- What the last of several parts is does not matter for the anchor. -/
theorem anchorOf_append_congr {front : List String} (hne : front ≠ []) (last other : String) :
    anchorOf (front ++ [last]) = anchorOf (front ++ [other]) := by
  cases front with
  | nil => exact absurd rfl hne
  | cons part others => rw [anchorOf_append, anchorOf_append]

/-- The first of several parts names nothing if it is an anchor. -/
theorem isIdle_of_anchorOf_append {part last : String} {others : List String}
    (h : anchorOf (part :: others ++ [last]) ≠ "") : isIdle part = true := by
  rw [anchorOf_append] at h
  rw [isIdle, Bool.or_eq_true, beq_iff_eq, beq_iff_eq]
  by_cases hroot : part = ""
  · exact .inl hroot
  · rw [if_neg hroot] at h
    by_cases hdot : part = "."
    · exact .inr hdot
    · exact absurd (if_neg hdot) h

/-- Only the empty path has a single empty part. -/
theorem text_eq_empty {path : Path} (h : path.parts = [""]) : path.text = "" := by
  have hsplit : split path.text.toList = [[]] := by
    have htexts := congrArg (List.map String.toList) h
    rw [parts, List.map_map] at htexts
    simpa using htexts
  rw [split_eq_splitOn] at hsplit
  have hjoined : ['/'].intercalate (path.text.toList.splitOn '/') = path.text.toList :=
    List.intercalate_splitOn '/'
  rw [hsplit] at hjoined
  exact String.toList_eq_nil_iff.mp hjoined.symm

/-- A part behind those of a path that is not empty leaves the anchor as it is. -/
theorem anchorOf_parts_append {path : Path} (hne : path.text ≠ "") (last : String) :
    anchorOf (path.parts ++ [last]) = anchorOf path.parts := by
  cases hparts : path.parts with
  | nil => exact absurd hparts path.parts_ne_nil
  | cons part others =>
      rw [anchorOf_append, anchorOf]
      -- An empty first part is an anchor when others follow it, as the last one now does.
      by_cases hpart : part = ""
      · have hothers : others ≠ [] := by
          rintro rfl
          rw [hpart] at hparts
          exact hne (text_eq_empty hparts)
        rw [if_pos hpart, if_pos ⟨hpart, hothers⟩]
      · simp only [hpart, false_and, if_false]

/-- What a path leads to: what it is anchored at, and its parts that name something. -/
def key (path : Path) : String × List String :=
  (path.anchor, path.parts.filter (!isIdle ·))

/-- A name that can be joined to a directory as one part. -/
structure IsPlainName (name : String) : Prop where
  notMem : '/' ∉ name.toList
  named : isIdle name = false

/-- A plain name alone is anchored at nothing. -/
theorem IsPlainName.anchorOf_singleton {name : String} (h : IsPlainName name) :
    anchorOf [name] = "" := by
  have hnamed := h.named
  rw [isIdle, Bool.or_eq_false_iff, beq_eq_false_iff_ne, beq_eq_false_iff_ne] at hnamed
  rw [anchorOf]
  simp only [hnamed.1, hnamed.2, false_and, if_false]

/-- A plain name is relative. -/
theorem IsPlainName.isAbsolute_eq_false {name : String} (h : IsPlainName name) :
    Path.isAbsolute ⟨name⟩ = false := by
  rw [isAbsolute, beq_eq_false_iff_ne]
  intro hhead
  exact h.notMem (List.mem_of_head? hhead)

/-- A plain name is joined to a directory by a slash, if the directory does not end in one. -/
theorem join_plain {directory : Path} (hne : directory.text ≠ "") {name : String}
    (h : IsPlainName name) :
    directory.join ⟨name⟩ =
      if directory.text.toList.getLast? = some '/' then ⟨directory.text ++ name⟩
      else ⟨directory.text ++ "/" ++ name⟩ := by
  have hisEmpty : directory.text.isEmpty = false := by simpa using hne
  rw [join, if_neg (by simp [h.isAbsolute_eq_false, hisEmpty])]
  simp only [beq_iff_eq]

/-- A path that ends in a slash has an empty last part, which a name behind the slash replaces. -/
theorem exists_parts_of_slash {path : Path} (h : path.text.toList.getLast? = some '/') :
    ∃ front, front ≠ [] ∧ path.parts = front ++ [""] ∧
      ∀ name : String, '/' ∉ name.toList → Path.parts ⟨path.text ++ name⟩ = front ++ [name] := by
  obtain ⟨characters, hcharacters⟩ := List.getLast?_eq_some_iff.mp h
  have htext : path.text = String.ofList characters ++ "/" := by
    rw [← String.toList_inj, hcharacters, String.toList_append, String.toList_ofList]
    rfl
  refine ⟨Path.parts ⟨String.ofList characters⟩, parts_ne_nil _, ?_, fun name hname => ?_⟩
  · have hparts := parts_append (String.ofList characters) ""
    rwa [String.append_empty, ← htext] at hparts
  · rw [htext, parts_append, parts_of_notMem hname]

/-- A plain name is joined to a directory as a last part. -/
theorem exists_parts_join (directory : Path) {name : String} (h : IsPlainName name) :
    ∃ front, (directory.join ⟨name⟩).parts = front ++ [name] ∧
      front.filter (!isIdle ·) = directory.parts.filter (!isIdle ·) ∧
      anchorOf (front ++ [name]) = anchorOf directory.parts := by
  by_cases hempty : directory.text = ""
  · have hdirectory : directory = ⟨""⟩ := congrArg Path.mk hempty
    rw [hdirectory, empty_join, parts_of_notMem h.notMem]
    exact ⟨[], rfl, rfl, h.anchorOf_singleton⟩
  · rw [join_plain hempty h]
    -- A directory that ends in a slash gets no second one, and loses its empty last part.
    by_cases hslash : directory.text.toList.getLast? = some '/'
    · obtain ⟨front, hne, hdirectory, hjoined⟩ := exists_parts_of_slash hslash
      rw [if_pos hslash, hjoined name h.notMem, hdirectory, List.filter_append]
      exact ⟨front, rfl, (List.append_nil _).symm, anchorOf_append_congr hne name ""⟩
    · rw [if_neg hslash, parts_append, parts_of_notMem h.notMem]
      exact ⟨directory.parts, rfl, rfl, anchorOf_parts_append hempty name⟩

/-- A name that is joined to a directory is added to the directory's key. -/
theorem key_join (directory : Path) {name : String} (h : IsPlainName name) :
    (directory.join ⟨name⟩).key = (directory.key.1, directory.key.2 ++ [name]) := by
  obtain ⟨front, hparts, hfilter, hanchor⟩ := exists_parts_join directory h
  have hname : [name].filter (!isIdle ·) = [name] := by simp [h.named]
  rw [key, anchor_eq, hparts, hanchor, List.filter_append, hfilter, hname, key, anchor_eq directory]

/-- Parts that name nothing do not count at the end. -/
theorem filter_dropIdleEnd (parts : List String) :
    (dropIdleEnd parts).filter (!isIdle ·) = parts.filter (!isIdle ·) := by
  have hfront (parts : List String) :
      (parts.dropWhile isIdle).filter (!isIdle ·) = parts.filter (!isIdle ·) := by
    induction parts with
    | nil => rfl
    | cons part parts ih =>
        by_cases hidle : isIdle part
        · rw [List.dropWhile_cons_of_pos hidle, List.filter_cons_of_neg (by simp [hidle]), ih]
        · rw [List.dropWhile_cons_of_neg hidle]
  rw [dropIdleEnd, List.filter_reverse, hfront, List.filter_reverse, List.reverse_reverse]

/-- A name at the end stays. -/
theorem dropIdleEnd_append (parts : List String) {name : String} (h : isIdle name = false) :
    dropIdleEnd (parts ++ [name]) = parts ++ [name] := by
  rw [dropIdleEnd, List.reverse_append]
  show ((name :: parts.reverse).dropWhile isIdle).reverse = _
  rw [List.dropWhile_cons_of_neg (by simp [h]), List.reverse_cons, List.reverse_reverse]

/-- What is left is in front. -/
theorem dropIdleEnd_isPrefix (parts : List String) : dropIdleEnd parts <+: parts := by
  have hsuffix := List.dropWhile_suffix (l := parts.reverse) isIdle
  rw [dropIdleEnd, ← List.reverse_suffix, List.reverse_reverse]
  exact hsuffix

/-- What is in front of the last part, without what names nothing at its end, is anchored as it is
together with the last part when that is at nothing. -/
theorem anchorOf_dropIdleEnd {front : List String} {last : String}
    (h : anchorOf (front ++ [last]) = "") : anchorOf (dropIdleEnd front) = "" := by
  obtain ⟨dropped, hdropped⟩ := dropIdleEnd_isPrefix front
  cases hfront : dropIdleEnd front with
  | nil => rfl
  | cons part others =>
      rw [hfront] at hdropped
      rw [← hdropped, List.append_assoc, List.cons_append] at h
      rw [anchorOf] at h ⊢
      by_cases hpart : part = ""
      · rw [if_pos ⟨hpart, by simp⟩] at h
        exact absurd h (by decide)
      · simp only [hpart, false_and, if_false] at h ⊢
        exact h

/-- The parts between slashes that name something are those of the path. -/
theorem filter_parts_intercalate {names : List String} (h : ∀ name ∈ names, '/' ∉ name.toList) :
    (Path.parts ⟨"/".intercalate names⟩).filter (!isIdle ·) = names.filter (!isIdle ·) := by
  by_cases hne : names = []
  · rw [hne, String.intercalate_nil]
    rfl
  · rw [parts_intercalate hne h]

/-- The key of a path that is put together from an anchor and further parts. -/
theorem key_ofBody {anchor : String} {body : List String}
    (hslash : ∀ part ∈ body, '/' ∉ part.toList)
    (hanchor : anchor = "/" ∨ anchor = "." ∨ anchor = "" ∧ anchorOf body = "") :
    (ofBody anchor body).key = (anchor, body.filter (!isIdle ·)) := by
  have hfilter := filter_parts_intercalate hslash
  rcases hanchor with rfl | rfl | ⟨rfl, hbody⟩
  · have hpath : ofBody "/" body = ⟨"" ++ "/" ++ "/".intercalate body⟩ := rfl
    rw [hpath, key, anchor_eq, parts_append, List.filter_append, hfilter]
    cases hparts : Path.parts ⟨"/".intercalate body⟩ with
    | nil => exact absurd hparts (parts_ne_nil _)
    | cons part others => rfl
  · by_cases hempty : body = []
    · rw [hempty]
      decide
    · have hpath : ofBody "." body = ⟨"." ++ "/" ++ "/".intercalate body⟩ := by
        unfold ofBody
        rw [if_pos (by simpa using hempty)]
        rfl
      rw [hpath, key, anchor_eq, parts_append, List.filter_append, hfilter]
      rfl
  · by_cases hempty : body = []
    · rw [hempty]
      decide
    · have hpath : ofBody "" body = ⟨"/".intercalate body⟩ := by
        unfold ofBody
        rw [if_neg (by simp), String.empty_append]
      rw [hpath, key, anchor_eq, parts_intercalate hempty hslash, hbody]

/-- A path is anchored at the root, at the working directory or at nothing. -/
theorem anchorOf_cases (parts : List String) :
    anchorOf parts = "/" ∨ anchorOf parts = "." ∨ anchorOf parts = "" := by
  cases parts with
  | nil => exact .inr (.inr rfl)
  | cons part others =>
      rw [anchorOf]
      by_cases hroot : part = "" ∧ others ≠ []
      · exact .inl (if_pos hroot)
      · rw [if_neg hroot]
        by_cases hdot : part = "."
        · exact .inr (.inl (if_pos hdot))
        · exact .inr (.inr (if_neg hdot))

/-- A name that is joined to a directory leaves the directory's anchor. -/
theorem anchor_join (directory : Path) {name : String} (h : IsPlainName name) :
    (directory.join ⟨name⟩).anchor = directory.anchor :=
  congrArg Prod.fst (key_join directory h)

/-- Behind its anchor a name joined to a directory has parts of which the last is the name, and of which
those before it that name something are the directory's. -/
theorem exists_body_join (directory : Path) {name : String} (h : IsPlainName name) :
    ∃ inner, (directory.join ⟨name⟩).body = inner ++ [name] ∧
      (∀ part ∈ inner, '/' ∉ part.toList) ∧
      inner.filter (!isIdle ·) = directory.parts.filter (!isIdle ·) ∧
      (directory.anchor = "" → anchorOf (dropIdleEnd inner) = "") := by
  obtain ⟨front, hparts, hfilter, hanchor⟩ := exists_parts_join directory h
  have hslash : ∀ part ∈ front, '/' ∉ part.toList := by
    intro part hpart
    refine @notMem_of_mem_parts (directory.join ⟨name⟩) part ?_
    rw [hparts]
    exact List.mem_append_left _ hpart
  rw [body, anchor_join directory h, hparts, anchor_eq, ← hanchor]
  by_cases hnothing : anchorOf (front ++ [name]) = ""
  · rw [if_pos (by simpa using hnothing)]
    exact ⟨front, rfl, hslash, hfilter, fun _ => anchorOf_dropIdleEnd hnothing⟩
  · rw [if_neg (by simpa using hnothing)]
    cases front with
    | nil => exact absurd h.anchorOf_singleton hnothing
    | cons part others =>
        -- The anchor takes up the first part, which names nothing and is in front of the name.
        have hidle := isIdle_of_anchorOf_append hnothing
        rw [List.filter_cons_of_neg (by simp [hidle])] at hfilter
        exact ⟨others, rfl, fun other hother => hslash other (List.mem_cons_of_mem _ hother), hfilter,
          fun hroot => absurd hroot hnothing⟩

/-- The parent of a path whose last part is a name has the parts before the name. -/
theorem parent?_of_body {path : Path} {inner : List String} {name : String}
    (h : path.body = inner ++ [name]) (hname : isIdle name = false) :
    path.parent? = some (ofBody path.anchor (dropIdleEnd inner)) := by
  unfold parent?
  rw [h, dropIdleEnd_append inner hname]
  cases hcase : inner ++ [name] with
  | nil => simp at hcase
  | cons part others =>
      show some (ofBody path.anchor (dropIdleEnd (part :: others).dropLast)) = _
      rw [← hcase, List.dropLast_concat]

/-- The parent of a name joined to a directory leads where the directory leads. -/
theorem key_parent_join (directory : Path) {name : String} (h : IsPlainName name) :
    ∃ parent, (directory.join ⟨name⟩).parent? = some parent ∧ parent.key = directory.key := by
  obtain ⟨inner, hinner, hslash, hfilter, hnothing⟩ := exists_body_join directory h
  refine ⟨_, parent?_of_body hinner h.named, ?_⟩
  have hdropped : ∀ part ∈ dropIdleEnd inner, '/' ∉ part.toList := fun part hpart =>
    hslash part ((dropIdleEnd_isPrefix inner).mem hpart)
  -- The parent is built from the anchor and the parts left, which gives the key back.
  have hcases := anchorOf_cases directory.parts
  rw [← anchor_eq] at hcases
  rw [anchor_join directory h,
    key_ofBody hdropped (hcases.imp_right (.imp_right fun h => ⟨h, hnothing h⟩)),
    filter_dropIdleEnd, hfilter]
  rfl

end StageArchive.Path
