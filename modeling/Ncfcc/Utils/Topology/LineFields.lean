import Ncfcc.Utils.Topology.MapsLine

/-! What is cut out of a line: the node, and a neighbour for every field between blanks. Nothing is read or
written outside of the line. -/
namespace Ncfcc.Utils.Rocketfuel
open Ncfcc.Library

/-! The neighbours. -/

/-- A field without its first and its last character. An empty field is followed by the text behind it. -/
def neighboursFrom : (field text : List Char) → List (List Char)
  | field, [] => [field.tail.dropLast]
  | field, c :: rest =>
    if isBlank c then (if field = [] then rest else field.tail.dropLast) :: neighboursFrom [] rest
    else neighboursFrom (field ++ [c]) rest

section
variable {front field text rest passed : List Char}

private theorem shorten_field (front rest : List Char) (nonempty : field ≠ []) (plain : terminator ∉ field) :
    ∃ last shortened, front.length + field.length = last + 1 ∧ shortened.length + 1 = field.length ∧
      Buffer.write (front ++ field ++ terminator :: rest) last terminator =
        some (front ++ (shortened ++ [terminator]) ++ terminator :: rest) ∧
      Buffer.cString (front ++ (shortened ++ [terminator]) ++ terminator :: rest) (front.length + 1) = some field.tail.dropLast := by
  obtain ⟨shortened,last,rfl⟩ := (List.eq_nil_or_concat' field).resolve_left nonempty
  refine ⟨(front ++ shortened).length,shortened,?_,?_,?_,?_⟩
  · simp [Nat.add_assoc]
  · simp
  · have written := Buffer.write_append (front ++ shortened) last (terminator :: rest) terminator
    simpa using written
  · cases shortened with
    | nil =>
      have empty := Buffer.cString_append (front ++ [terminator]) [] List.not_mem_nil rest
      simpa using empty
    | cons first middle =>
      have inner : terminator ∉ middle := fun member => plain (by simp [member])
      have read := Buffer.cString_append (front ++ [first]) middle inner (terminator :: rest)
      simpa using read

/-- A field in the middle of the neighbours or at their end: behind it is its separator or the terminator. -/
theorem splitNeighbours_field (fields : Nat) (front rest : List Char) (neighList : List String) {separated : Buffer}
    {stringp : Option Nat} (nonempty : field ≠ []) (plain : terminator ∉ field)
    (cutOff : Buffer.strsep isBlank separated front.length = some (front ++ field ++ terminator :: rest,stringp)) :
    ∃ shortened, shortened.length + 1 = field.length ∧ splitNeighbours (fields + 1) separated front.length neighList =
      match stringp with
      | none => some (front ++ (shortened ++ [terminator]) ++ terminator :: rest,
          neighList ++ [String.ofList field.tail.dropLast])
      | some next => splitNeighbours fields (front ++ (shortened ++ [terminator]) ++ terminator :: rest) next
          (neighList ++ [String.ofList field.tail.dropLast]) := by
  obtain ⟨last,shortened,position,length,written,read⟩ := shorten_field front rest nonempty plain
  refine ⟨shortened,length,?_⟩
  rw [splitNeighbours,cutOff]
  have token := Buffer.cString_append front field plain rest
  cases stringp with
  | none => simp only [Option.bind_some,token,position,written,read]
  | some next => simp only [Option.bind_some,token,position,written,read]

private theorem splitNeighbours_empty (fields : Nat) (front rest : List Char) (neighList : List String) {c : Char}
    (separator : isBlank c = true) (plain : terminator ∉ text) :
    splitNeighbours (fields + 1) (front ++ [terminator] ++ c :: (text ++ terminator :: rest)) (front ++ [terminator]).length neighList =
      splitNeighbours fields (front ++ [terminator] ++ [terminator] ++ (text ++ terminator :: rest))
        (front ++ [terminator] ++ [terminator]).length (neighList ++ [String.ofList text]) := by
  have cutOff := Buffer.strsep_separator (fun own (member : own ∈ []) => nomatch member)
    (front ++ [terminator]) separator (by rintro rfl; exact nomatch separator) (text ++ terminator :: rest)
  have field := Buffer.cString_append (front ++ [terminator]) [] List.not_mem_nil (text ++ terminator :: rest)
  have written := Buffer.write_append front terminator (terminator :: (text ++ terminator :: rest)) terminator
  have read := Buffer.cString_append (front ++ [terminator] ++ [terminator]) text plain rest
  simp only [List.append_assoc,List.nil_append,List.cons_append,List.length_append,List.length_cons,List.length_nil,Nat.add_zero,
    Nat.zero_add] at cutOff field written read ⊢
  rw [splitNeighbours,cutOff]
  simp only [Option.bind_some,field,List.length_nil,Nat.add_zero,written,read,Nat.add_assoc]

private theorem splitNeighbours_text (field passed : List Char) {fields : Nat} (enough : text.length < fields) (front rest : List Char) (neighList : List String)
    (plain : ∀ c ∈ field ++ text, c ≠ terminator) (whole : ∀ c ∈ field, isBlank c = false)
    (started : field ≠ [] ∨ ∃ before, passed = before ++ [terminator])
    (ends : ∀ c ∈ (field ++ text).getLast?, isBlank c = false) (nonempty : field ++ text ≠ []) :
    ∃ shortened : List Char, shortened.length = (passed ++ field ++ text).length ∧
      splitNeighbours fields (front ++ passed ++ field ++ text ++ terminator :: rest) (front ++ passed).length neighList =
        some (front ++ shortened ++ terminator :: rest,neighList ++ (neighboursFrom field text).map String.ofList) := by
  induction text generalizing field passed fields neighList with
  | nil =>
    obtain ⟨fields,rfl⟩ := Nat.exists_eq_succ_of_ne_zero (Nat.ne_zero_of_lt enough)
    rw [List.append_nil] at plain nonempty
    have separate : ∀ c ∈ field, c ≠ terminator ∧ isBlank c = false := fun c member => ⟨plain c member,whole c member⟩
    have cutOff := Buffer.strsep_terminator separate (front ++ passed) rest
    obtain ⟨shortened,length,done⟩ := splitNeighbours_field fields (front ++ passed) rest neighList nonempty
      (fun member => plain _ member rfl) cutOff
    refine ⟨passed ++ (shortened ++ [terminator]),by simp [length],?_⟩
    rw [List.append_nil,done]
    simp [neighboursFrom]
  | cons c more ih =>
    obtain ⟨fields,rfl⟩ := Nat.exists_eq_succ_of_ne_zero (Nat.ne_zero_of_lt enough)
    have later : more.length < fields := Nat.lt_of_succ_lt_succ enough
    cases separator : isBlank c with
    | false =>
      obtain ⟨shortened,length,done⟩ := ih (field ++ [c]) passed (Nat.lt_succ_of_lt later) neighList
        (by simpa using plain) (by
          intro own member
          rcases List.mem_append.mp member with old | new
          · exact whole own old
          · exact List.mem_singleton.mp new ▸ separator) (Or.inl (by simp)) (by simpa using ends) (by simp)
      refine ⟨shortened,by simpa using length,?_⟩
      rw [neighboursFrom,if_neg (by simp [separator])]
      simpa using done
    | true =>
      have behind : more ≠ [] := by
        rintro rfl
        exact absurd (ends c (by simp)) (by simp [separator])
      have lastOf : more.getLast? = (field ++ c :: more).getLast? := by
        cases more with
        | nil => exact absurd rfl behind
        | cons second others => simp [List.getLast?_cons]
      have plainMore : ∀ own ∈ more, own ≠ terminator := fun own member => plain own (by simp [member])
      rw [neighboursFrom,if_pos separator]
      by_cases empty : field = []
      · subst empty
        obtain ⟨before,rfl⟩ := started.resolve_left (fun none => none rfl)
        have emptied := splitNeighbours_empty fields (front ++ before) rest neighList separator
          (fun member => plainMore _ member rfl)
        obtain ⟨shortened,length,done⟩ := ih [] (before ++ [terminator] ++ [terminator]) later
          (neighList ++ [String.ofList more]) plainMore (fun _ member => nomatch member) (Or.inr ⟨_,rfl⟩)
          (by simpa [lastOf] using ends) behind
        refine ⟨shortened,by simpa using length,?_⟩
        simp only [List.append_assoc,List.nil_append,List.cons_append,↓reduceIte,List.map_cons] at emptied done ⊢
        rw [emptied,done]
      · have separate : ∀ own ∈ field, own ≠ terminator ∧ isBlank own = false := fun own member =>
          ⟨plain own (by simp [member]),whole own member⟩
        have cutOff := Buffer.strsep_separator separate (front ++ passed) separator (plain c (by simp))
          (more ++ terminator :: rest)
        obtain ⟨short,shorter,step⟩ := splitNeighbours_field fields (front ++ passed) (more ++ terminator :: rest) neighList empty
          (fun member => plain _ (by simp [member]) rfl) cutOff
        obtain ⟨shortened,length,done⟩ := ih [] (passed ++ (short ++ [terminator]) ++ [terminator]) later
          (neighList ++ [String.ofList field.tail.dropLast]) plainMore (fun _ member => nomatch member) (Or.inr ⟨_,rfl⟩)
          (by simpa [lastOf] using ends) behind
        have position : (front ++ passed).length + field.length + 1 =
            (front ++ (passed ++ (short ++ [terminator]) ++ [terminator])).length := by
          simp
          omega
        refine ⟨shortened,?_,?_⟩
        · simp at length ⊢
          omega
        · rw [if_neg empty]
          simp only [position] at step
          simp only [List.append_assoc,List.nil_append,List.cons_append,List.map_cons] at step done ⊢
          rw [step,done]

private theorem splitNeighbours_spec {c : Char} {more : List Char} {fields : Nat} (enough : more.length < fields) (front rest : List Char)
    (plain : ∀ own ∈ c :: more, own ≠ terminator) (starts : isBlank c = false)
    (ends : ∀ own ∈ (c :: more).getLast?, isBlank own = false) :
    ∃ shortened : List Char, shortened.length = (c :: more).length ∧
      splitNeighbours fields (front ++ (c :: more) ++ terminator :: rest) front.length [] =
        some (front ++ shortened ++ terminator :: rest,(neighboursFrom [] (c :: more)).map String.ofList) := by
  obtain ⟨shortened,length,done⟩ := splitNeighbours_text [c] [] enough front rest [] plain
    (by simp [starts]) (Or.inl (List.cons_ne_nil c [])) ends (List.cons_ne_nil c more)
  refine ⟨shortened,by simpa using length,?_⟩
  rw [neighboursFrom,if_neg (by simp [starts])]
  simpa using done

end

/-! The line with its terminators. -/

namespace MatchedLine
variable (line : MatchedLine)

def stops : List Nat := groups.filterMap fun i => (line.regmatch i).map Prod.snd

def cutText : Buffer := (line.pieces.text ++ [terminator]).mapIdx fun i c => if i ∈ line.stops then terminator else c

variable {line}

private theorem mem_stops {i : Nat} : i ∈ line.stops ↔ ∃ group ∈ groups, ∃ offset, line.regmatch group = some offset ∧ offset.2 = i := by
  simp [stops]

private theorem cut_eq : line.cut = some line.cutText := by
  have same : line.cut = line.stops.foldlM (fun buffer i => Buffer.write buffer i terminator) (line.pieces.text ++ [terminator]) := by
    rw [stops,List.foldlM_filterMap,cut]
    congr
    funext buffer i
    cases line.regmatch i <;> rfl
  rw [same]
  apply Buffer.foldlM_write
  intro i member
  obtain ⟨group,_,offset,found,rfl⟩ := mem_stops.mp member
  have bounds := Pieces.offsets_bounds found
  simp only [List.length_append,List.length_singleton]
  omega

private theorem cutText_length : line.cutText.length = line.pieces.text.length + 1 := by
  simp [cutText]

private theorem cutText_last (line : MatchedLine) : line.cutText.getLast? = some terminator := by
  rw [cutText,List.mapIdx_append]
  simp

/-- A group that matched where no other group ends: its text is followed by a terminator. -/
theorem cutText_group (line : MatchedLine) {group : Nat} {before gap behind : Pieces} {piece : List Char} (member : group ∈ groups)
    (split : line.pieces = before ++ ((gap ++ [(some group,piece)]) ++ behind)) (once : ∀ other ∈ behind, other.1 ≠ some group)
    (unmatched : ∀ other ∈ gap, other.1 = none) (apart : before = [] ∨ gap.text ≠ []) :
    ∃ front rest, line.cutText = front ++ piece ++ terminator :: rest ∧ front.length = before.text.length + gap.text.length ∧
      line.regmatch group = some (front.length,front.length + piece.length) := by
  have found : line.regmatch group =
      some (before.text.length + gap.text.length,before.text.length + gap.text.length + piece.length) := by
    have only := Pieces.offsets_eq_some 0 (before ++ gap) piece once
    rw [regmatch,split]
    simpa [Pieces.text_append] using only
  have inside : ∀ i ∈ line.stops, i < before.text.length + gap.text.length ∨
      before.text.length + gap.text.length + piece.length ≤ i := by
    intro i stop
    obtain ⟨other,_,offset,matched,rfl⟩ := mem_stops.mp stop
    by_cases own : other = group
    · subst own
      rw [found] at matched
      cases matched
      exact Or.inr (Nat.le_refl _)
    · rw [regmatch,split] at matched
      have others : ∀ piece' ∈ gap ++ [(some group,piece)], piece'.1 ≠ some other := by
        intro piece' inMiddle
        rcases List.mem_append.mp inMiddle with inGap | last
        · rw [unmatched piece' inGap]
          exact nofun
        · rw [List.mem_singleton.mp last]
          exact fun same => own (Option.some.inj same).symm
      rcases Pieces.offsets_outside others matched with earlier | later
      · have bounds := Pieces.offsets_bounds earlier
        rcases apart with rfl | nonempty
        · exact nomatch earlier
        · have positive := List.length_pos_of_ne_nil nonempty
          omega
      · rw [Pieces.text_append,List.length_append] at later
        simp only [Pieces.text,List.flatMap_singleton] at later ⊢
        omega
  have text : line.pieces.text ++ [terminator] = (before ++ gap).text ++ (piece ++ (behind.text ++ [terminator])) := by
    rw [split]
    simp [Pieces.text]
  obtain ⟨c,more,next⟩ := List.exists_cons_of_ne_nil (show behind.text ++ [terminator] ≠ [] by simp)
  have stop : piece.length + (before ++ gap).text.length ∈ line.stops := by
    refine mem_stops.mpr ⟨group,member,_,found,?_⟩
    rw [Pieces.text_append,List.length_append]
    omega
  have kept : (piece.mapIdx fun i c => if i + (before ++ gap).text.length ∈ line.stops then terminator else c) = piece := by
    apply List.ext_getElem?
    intro i
    rw [List.getElem?_mapIdx]
    cases here : piece[i]? with
    | none => rfl
    | some c =>
      have below := (List.getElem?_eq_some_iff.mp here).1
      rw [Option.map_some,if_neg]
      intro stop
      have apart := inside _ stop
      rw [Pieces.text_append,List.length_append] at apart
      omega
  refine ⟨(before ++ gap).text.mapIdx fun i c => if i ∈ line.stops then terminator else c,
    more.mapIdx fun i c => if i + 1 + piece.length + (before ++ gap).text.length ∈ line.stops then terminator else c,?_,?_,?_⟩
  · rw [cutText,text,next,List.mapIdx_append,List.mapIdx_append,kept,List.mapIdx_cons,Nat.zero_add,if_pos stop]
    rw [List.append_assoc]
  · rw [List.length_mapIdx,Pieces.text_append,List.length_append]
  · rw [List.length_mapIdx,Pieces.text_append,List.length_append]
    exact found

/-! Which groups stand where. -/

private theorem front_groups : ∀ piece ∈ line.front, ∀ group, piece.1 = some group → group ≤ 6 := by
  simp only [front,List.forall_mem_append,List.forall_mem_cons,List.mem_replicate,List.mem_map]
  simp
  grind

private theorem frontTail_groups : ∀ piece ∈ line.front.tail, piece.1 ≠ some 1 := by
  simp only [front,List.cons_append,List.tail_cons,List.forall_mem_append,List.forall_mem_cons,List.mem_replicate,List.mem_map]
  simp
  grind

private theorem back_groups : ∀ piece ∈ line.back, ∀ group, piece.1 = some group → 8 ≤ group := by
  simp only [back,List.forall_mem_append,List.forall_mem_cons,List.mem_map]
  simp

private theorem uidText_plain : terminator ∉ line.uidText := by
  intro member
  rcases List.mem_append.mp member with dash | digit
  · exact absurd (List.eq_of_mem_replicate dash) (by decide)
  · exact absurd (line.uid.property.2 terminator digit) (by decide)

private theorem cutText_uid (line : MatchedLine) :
    line.argv 0 = some 0 ∧ line.cutText.cString 0 = some line.uidText := by
  have split : line.pieces = [] ++ (([] ++ [(some 1,line.uidText)]) ++
      (line.front.tail ++ (line.arrow ++ line.neighbourText.toList.map (some 7,·) ++ line.back))) := by
    simp [pieces,front]
  obtain ⟨front,rest,text,start,found⟩ := line.cutText_group (by decide) split (by
    intro other member
    simp only [List.mem_append,or_assoc] at member
    rcases member with inFront | inArrow | inNeighbours | inBack
    · exact frontTail_groups other inFront
    · rw [List.mem_singleton.mp inArrow]
      exact nofun
    · obtain ⟨_,_,rfl⟩ := List.mem_map.mp inNeighbours
      simp
    · intro same
      exact absurd (back_groups other inBack 1 same) (by omega)) nofun (Or.inl rfl)
  obtain rfl := List.eq_nil_of_length_eq_zero start
  rw [argv,found,text]
  exact ⟨rfl,Buffer.cString_append [] line.uidText uidText_plain rest⟩

private theorem cutText_neighbours {text : List Char} (listed : line.neighbourText = some text) :
    ∃ front rest, line.cutText = front ++ text ++ terminator :: rest ∧ line.argv 6 = some front.length ∧
      front.length = (line.front ++ line.arrow).text.length := by
  have split : line.pieces = line.front ++ ((line.arrow ++ [(some 7,text)]) ++ line.back) := by
    simp [pieces,listed]
  obtain ⟨front,rest,cut,length,found⟩ := line.cutText_group (by decide) split (by
    intro other member same
    exact absurd (back_groups other member 7 same) (by omega)) (by simp [arrow]) (Or.inr (by simp [arrow,Pieces.text]))
  refine ⟨front,rest,cut,?_,?_⟩
  · rw [argv,found]
    rfl
  · rw [length,Pieces.text_append,List.length_append]

private theorem argv_neighbours (unlisted : line.neighbourText = none) : line.argv 6 = none := by
  have split : line.pieces = line.front ++ (line.arrow ++ line.back) := by
    simp [pieces,unlisted]
  have absent : line.regmatch 7 = none := by
    rw [regmatch,split]
    apply Pieces.offsets_eq_none
    intro other member same
    simp only [List.mem_append] at member
    rcases member with inFront | inArrow | inBack
    · exact absurd (front_groups other inFront 7 same) (by omega)
    · rw [List.mem_singleton.mp inArrow] at same
      exact nomatch same
    · exact absurd (back_groups other inBack 7 same) (by omega)
  rw [argv,absent]
  rfl

/-- Behind the radius, which is a single digit, stands a terminator. -/
theorem cutText_radius (line : MatchedLine) : ∃ front rest, line.cutText = front ++ [line.radius.val] ++ terminator :: rest ∧
    line.argv 9 = some front.length ∧
      (line.front ++ line.arrow).text.length + (Pieces.text (line.neighbourText.toList.map (some 7,·))).length ≤ front.length := by
  have split : line.pieces = (line.front ++ line.arrow ++ line.neighbourText.toList.map (some 7,·) ++
      ([(none,line.afterNeighbours.val)] ++ line.externText.toList.map (some 8,·) ++
        [(none,line.afterExterns.val ++ ['=']),(some 9,line.name.val)])) ++
      (([(none,line.afterName.val ++ ['r'])] ++ [(some 10,[line.radius.val])]) ++ [(none,line.afterRadius.val)]) := by
    simp [pieces,back]
  obtain ⟨front,rest,cut,length,found⟩ := line.cutText_group (by decide) split (by simp) (by simp)
    (Or.inr (by simp [Pieces.text]))
  refine ⟨front,rest,cut,?_,?_⟩
  · rw [argv,found]
    rfl
  · rw [length,Pieces.text_append _ (_ ++ _),Pieces.text_append _ (List.map ..),List.length_append,List.length_append]
    omega

/-- Every group starts in the line, whatever has been written to it. -/
theorem cString_argv {buffer : Buffer} (length : buffer.length = line.cutText.length) (last : buffer.getLast? = some terminator)
    {i position : Nat} (found : line.argv i = some position) : ∃ text, buffer.cString position = some text := by
  obtain ⟨offset,matched,rfl⟩ := Option.map_eq_some_iff.mp found
  have bounds := Pieces.offsets_bounds matched
  apply Option.isSome_iff_exists.mp
  apply Buffer.cString_isSome last
  rw [length,cutText_length]
  omega

private theorem argv_isSome (line : MatchedLine) (i : Nat) (matched : ∃ piece ∈ line.pieces, piece.1 = some (i + 1)) : ∃ position, line.argv i = some position := by
  apply Option.isSome_iff_exists.mp
  rw [argv,Option.isSome_map]
  exact Pieces.offsets_isSome 0 matched

/-! What is read. -/

/-- The neighbours stand between angle brackets, and only the characters of their class do. -/
theorem neighbourText_class {text : List Char} (listed : line.neighbourText = some text) :
    ∃ inner, text = '<' :: inner ++ ['>'] ∧ inner ≠ [] ∧ ∀ c ∈ text, isNeighbour c = true := by
  obtain ⟨⟨inner,nonempty,allowed⟩,_,rfl⟩ := Option.map_eq_some_iff.mp listed
  refine ⟨inner,rfl,nonempty,?_⟩
  intro c member
  rcases List.mem_append.mp member with inFront | last
  · rcases List.mem_cons.mp inFront with rfl | inInner
    · rfl
    · exact allowed c inInner
  · rw [List.mem_singleton.mp last]
    rfl

def neighbourList (line : MatchedLine) : List (List Char) := (line.neighbourText.map (neighboursFrom [])).getD []

/-- The field of neighbours is split, and what stands behind it remains. -/
theorem cutText_split (line : MatchedLine) : ∃ buffer : Buffer, buffer.length = line.cutText.length ∧ buffer.getLast? = some terminator ∧
    (∃ position, line.argv 9 = some position ∧ buffer[position + 1]? = some terminator) ∧
    readNeighbours (line.argv 6) line.cutText = some (buffer,line.neighbourList.map String.ofList) := by
  obtain ⟨front,rest,cut,found,behind⟩ := line.cutText_radius
  have stop : line.cutText[front.length + 1]? = some terminator := by
    rw [cut]
    simp
  cases listed : line.neighbourText with
  | none =>
    refine ⟨line.cutText,rfl,line.cutText_last,⟨front.length,found,stop⟩,?_⟩
    rw [argv_neighbours listed,neighbourList,listed]
    rfl
  | some text =>
    obtain ⟨before,after,text',started,position⟩ := cutText_neighbours listed
    obtain ⟨inner,shape,nonempty,allowed⟩ := neighbourText_class listed
    have plain : ∀ c ∈ text, c ≠ terminator := by
      intro c member same
      exact absurd (same ▸ allowed c member) (by decide)
    have starts : text = '<' :: (inner ++ ['>']) := shape
    have enough : (inner ++ ['>']).length < line.cutText.length := by
      rw [text',starts]
      simp only [List.length_append,List.length_cons]
      omega
    obtain ⟨shortened,length,done⟩ := splitNeighbours_spec enough before after (starts ▸ plain) rfl (by
      rw [← List.cons_append,List.getLast?_concat]
      simp [isBlank])
    rw [← starts] at length done
    have last : (terminator :: after).getLast? = some terminator := by
      have whole := line.cutText_last
      rw [text',List.getLast?_append_cons] at whole
      exact whole
    refine ⟨before ++ shortened ++ terminator :: after,?_,?_,⟨front.length,found,?_⟩,?_⟩
    · rw [text']
      simp [length]
    · rw [List.getLast?_append_cons]
      exact last
    · have inside : (before ++ text).length ≤ front.length + 1 := by
        rw [listed] at behind
        simp only [Option.toList_some,List.map_cons,List.map_nil,Pieces.text,List.flatMap_singleton] at behind position ⊢
        rw [List.length_append]
        omega
      have same : (before ++ shortened).length = (before ++ text).length := by
        simp [length]
      rw [text',List.getElem?_append_right inside] at stop
      rw [List.getElem?_append_right (same ▸ inside),same]
      exact stop
    · rw [started,neighbourList,listed]
      rw [← text'] at done
      exact done

/-- What is taken from a line: its node and its neighbours, and the radius zero whatever the radius is. -/
theorem fields_cut : line.cut.bind (fields line.argv) =
    some ⟨String.ofList line.uidText,line.neighbourList.map String.ofList,0⟩ := by
  obtain ⟨first,uid⟩ := line.cutText_uid
  obtain ⟨buffer,length,last,⟨radius,tenth,stop⟩,split⟩ := line.cutText_split
  obtain ⟨second,secondFound⟩ := line.argv_isSome 1 ⟨(some 2,'@' :: line.loc.val),by simp [pieces,front],rfl⟩
  obtain ⟨fifth,fifthFound⟩ := line.argv_isSome 4 ⟨(some 5,line.numNeigh.val),by simp [pieces,front],rfl⟩
  obtain ⟨ninth,ninthFound⟩ := line.argv_isSome 8 ⟨(some 9,line.name.val),by simp [pieces,back],rfl⟩
  obtain ⟨loc,locRead⟩ := cString_argv rfl line.cutText_last secondFound
  obtain ⟨numNeigh,numRead⟩ := cString_argv rfl line.cutText_last fifthFound
  obtain ⟨name,nameRead⟩ := cString_argv length last ninthFound
  rw [cut_eq,Option.bind_some,fields,split]
  simp only [first,secondFound,fifthFound,ninthFound,tenth,Option.bind_some,uid,locRead,numRead,nameRead,
    Buffer.cString_terminator stop,Option.map_some]
  rfl

end MatchedLine

/-- A line is read within its buffer, and it is added to the graph whatever its radius. -/
theorem readLine_eq (allocator : Allocator) (reading : Reading) (line : MatchedLine) : readLine allocator reading line =
    some (generateFromMapsFile allocator reading ⟨String.ofList line.uidText,line.neighbourList.map String.ofList,0⟩) := by
  rw [readLine,MatchedLine.fields_cut]
  rfl

end Ncfcc.Utils.Rocketfuel
