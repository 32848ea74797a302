import Ncfcc.NdnCxx.Exclude

/-! The wire encoding of exclude filters. ANY on the empty component is written as ANY alone, so
that it is read back as long as no digest comes before the empty component. -/
namespace Ncfcc.NdnCxx
open Ncfcc.Encoding Ncfcc.Library Ncfcc.Library.Marks

namespace ExcludeMap

def itemBlocks (item : Component × Bool) : List (Nat × List UInt8) :=
  (if !item.1.isEmpty || !item.2 then [(item.1.type,item.1.value)] else []) ++ if item.2 then [(Tlv.Any,[])] else []

/-- The elements on the wire. The items are prepended from the greatest on. -/
def blocks (exclude : ExcludeMap) : List (Nat × List UInt8) := exclude.reverse.flatMap itemBlocks

def wireEncode (exclude : ExcludeMap) : Except String Block :=
  if exclude.isEmpty then .error "Exclude filter cannot be empty"
  else .ok (Block.make Tlv.Exclude (exclude.blocks.flatMap fun element => (Block.make element.1 element.2).wire))

/-- The loop over the elements; the items before a malformed one are kept. -/
def decodeLoop : List Block → ExcludeMap → ExcludeMap × Except String Unit
  | [], exclude => (exclude,.ok ())
  | [element], exclude =>
    match Component.ofBlock element.type element.value with
    | .error _ => (exclude,.error "Incorrect format of Exclude filter")
    | .ok excludedComponent => (exclude.assign excludedComponent false,.ok ())
  | element :: next :: rest, exclude =>
    match Component.ofBlock element.type element.value with
    | .error _ => (exclude,.error "Incorrect format of Exclude filter")
    | .ok excludedComponent =>
      if next.type = Tlv.Any then decodeLoop rest (exclude.assign excludedComponent true)
      else decodeLoop (next :: rest) (exclude.assign excludedComponent false)

def decode : List Block → ExcludeMap × Except String Unit
  | [] => ([],.error "Exclude element cannot be empty")
  | first :: rest =>
    if first.type = Tlv.Any then decodeLoop rest (assign [] .empty true) else decodeLoop (first :: rest) []

private theorem length_assign_le (exclude : ExcludeMap) (component : Component) (any : Bool) :
    (exclude.assign component any).length ≤ exclude.length + 1 := by
  unfold assign insert
  dsimp only
  split
  · rw [List.length_set]
    exact Nat.le_succ _
  · rw [List.length_set]
    exact List.length_insertIdx_le_succ

/-- A component above all items comes first. -/
theorem assign_above {exclude : ExcludeMap} {component : Component} (low : ∀ item ∈ exclude, item.1 < component)
    (any : Bool) : exclude.assign component any = (component,any) :: exclude := by
  unfold assign
  have fresh : insert ([] ++ exclude) component any = ([] ++ (component,any) :: exclude,0,true) :=
    insert_new (fun item inside => absurd inside List.not_mem_nil) (fun item inside => low item (List.mem_of_mem_head? inside)) any
  rw [List.nil_append] at fresh
  rw [fresh]
  rfl

private theorem descending_around {upper rest : ExcludeMap} {component : Component} (first : Descending upper)
    (high : ∀ item ∈ upper, component < item.1) (later : Descending rest) (low : ∀ item ∈ rest, item.1 < component)
    (any : Bool) : Descending (upper ++ (component,any) :: rest) := by
  refine descending_append first (List.pairwise_cons.mpr ⟨low,later⟩) high fun item inside => ?_
  rcases List.mem_cons.mp inside with rfl | inside
  · exact le_refl component
  · exact (low item inside).le

private theorem assign_split {upper lower : ExcludeMap} {component : Component} (high : ∀ item ∈ upper, component < item.1)
    (low : ∀ item ∈ lower.head?, item.1 < component) (any : Bool) :
    assign (upper ++ lower) component any = upper ++ (component,any) :: lower := by
  unfold assign
  rw [insert_new high low]
  simp

private theorem descending_assign {exclude : ExcludeMap} (ordered : Descending exclude) (component : Component) (any : Bool) :
    Descending (exclude.assign component any) := by
  have high : ∀ item ∈ above exclude component, component < item.1 := fun item inside => lt_of_mem_above inside
  have upper := descending_above ordered component
  have sorted := descending_upTo ordered component
  have whole := above_append_upTo exclude component
  cases tail : upTo exclude component with
  | nil =>
    rw [tail] at whole
    rw [← whole,assign_split high fun item inside => absurd inside (by simp)]
    exact descending_around upper high List.Pairwise.nil (fun item inside => absurd inside List.not_mem_nil) any
  | cons item rest =>
    obtain ⟨key,old⟩ := item
    rw [tail] at whole sorted
    obtain ⟨smaller,later⟩ := List.pairwise_cons.mp sorted
    rcases (le_of_upTo tail).eq_or_lt with same | less
    · cases same
      have kept : exclude.assign key any = above exclude key ++ (key,any) :: rest := by
        conv_lhs => rw [← whole]
        unfold assign
        rw [insert_old high]
        simp
      rw [kept]
      exact descending_around upper high later smaller any
    · rw [← whole,assign_split high fun item inside => by cases inside; exact less]
      refine descending_around upper high sorted (fun item inside => ?_) any
      rcases List.mem_cons.mp inside with rfl | inside
      · exact less
      · exact (smaller item inside).trans less

private theorem descending_decodeLoop {elements : List Block} {exclude : ExcludeMap} (ordered : Descending exclude) :
    Descending (decodeLoop elements exclude).1 := by
  fun_induction decodeLoop elements exclude with
  | case1 exclude => exact ordered
  | case2 element exclude message failed => exact ordered
  | case3 element exclude component read => exact descending_assign ordered component false
  | case4 element next rest exclude message failed => exact ordered
  | case5 element next rest exclude component read any ih => exact ih (descending_assign ordered component true)
  | case6 element next rest exclude component read other ih => exact ih (descending_assign ordered component false)

/-- At most one item for every element that is not ANY. -/
theorem length_decodeLoop_le (elements : List Block) (exclude : ExcludeMap) : (decodeLoop elements exclude).1.length ≤
    exclude.length + (elements.filter fun element => element.type ≠ Tlv.Any).length := by
  have counted : ∀ {element : Block} {component : Component}, Component.ofBlock element.type element.value = .ok component →
      element.type ≠ Tlv.Any := by
    intro element component read any
    obtain ⟨type,-⟩ := Component.ofBlock_eq_ok.mp read
    rcases component.formed with generic | ⟨digest,-⟩
    · exact absurd (type.symm.trans generic) (by rw [any]; decide)
    · exact absurd (type.symm.trans digest) (by rw [any]; decide)
  fun_induction decodeLoop elements exclude with
  | case1 exclude => exact Nat.le_refl _
  | case2 element exclude message failed => exact Nat.le_add_right _ _
  | case3 element exclude component read =>
    have more := length_assign_le exclude component false
    simpa [counted read] using more
  | case4 element next rest exclude message failed => exact Nat.le_add_right _ _
  | case5 element next rest exclude component read any ih =>
    have more := length_assign_le exclude component true
    rw [List.filter_cons_of_pos (by simpa using counted read),List.filter_cons_of_neg (by simp [any]),List.length_cons]
    omega
  | case6 element next rest exclude component read other ih =>
    have more := length_assign_le exclude component false
    rw [List.filter_cons_of_pos (by simpa using counted read),List.length_cons]
    omega

/-! Reading back what was written. -/

def block (element : Nat × List UInt8) : Block := Block.make element.1 element.2

private theorem ofBlock_block (component : Component) :
    Component.ofBlock (block (component.type,component.value)).type (block (component.type,component.value)).value =
      .ok component :=
  Component.ofBlock_eq_ok.mpr ⟨rfl,rfl⟩

private theorem component_ne_any (component : Component) : component.type ≠ Tlv.Any := by
  rcases component.formed with generic | ⟨digest,-⟩
  · rw [generic]
    decide
  · rw [digest]
    decide

private theorem decodeLoop_any (component : Component) (rest : List Block) (exclude : ExcludeMap) :
    decodeLoop (block (component.type,component.value) :: block (Tlv.Any,[]) :: rest) exclude =
      decodeLoop rest (exclude.assign component true) := by
  rw [decodeLoop,ofBlock_block]
  exact if_pos rfl

private theorem decodeLoop_plain (component : Component) {rest : List Block} (exclude : ExcludeMap)
    (other : ∀ next ∈ rest.head?, next.type ≠ Tlv.Any) :
    decodeLoop (block (component.type,component.value) :: rest) exclude =
      decodeLoop rest (exclude.assign component false) := by
  cases rest with
  | nil =>
    conv_lhs => rw [decodeLoop,ofBlock_block]
    rfl
  | cons next rest =>
    rw [decodeLoop,ofBlock_block]
    exact if_neg (other next rfl)

def Written (item : Component × Bool) : Prop := (!item.1.isEmpty || !item.2) = true

private theorem itemBlocks_of_written {item : Component × Bool} (written : Written item) :
    itemBlocks item = (item.1.type,item.1.value) :: if item.2 then [(Tlv.Any,[])] else [] :=
  congrArg (· ++ _) (if_pos written)

private theorem head_blocks {items : List (Component × Bool)} (written : ∀ item ∈ items, Written item) :
    ∀ next ∈ ((items.flatMap itemBlocks).map block).head?, next.type ≠ Tlv.Any := by
  cases items with
  | nil => exact fun next inside => absurd inside (by simp)
  | cons item items =>
    rw [List.flatMap_cons,itemBlocks_of_written (written item List.mem_cons_self)]
    intro next inside
    cases inside
    exact component_ne_any item.1

private theorem decodeLoop_items {items : List (Component × Bool)} {exclude : ExcludeMap} (written : ∀ item ∈ items, Written item)
    (ascending : items.Pairwise fun first second => first.1 < second.1)
    (low : ∀ item ∈ items, ∀ old ∈ exclude, old.1 < item.1) :
    decodeLoop ((items.flatMap itemBlocks).map block) exclude = (items.reverse ++ exclude,.ok ()) := by
  induction items generalizing exclude with
  | nil => rfl
  | cons item items ih =>
    obtain ⟨component,any⟩ := item
    obtain ⟨here,later⟩ := List.forall_mem_cons.mp written
    obtain ⟨smaller,rest⟩ := List.pairwise_cons.mp ascending
    obtain ⟨below,others⟩ := List.forall_mem_cons.mp low
    have next : ∀ other ∈ items, ∀ old ∈ (component,any) :: exclude, old.1 < other.1 := by
      intro other inside old member
      rcases List.mem_cons.mp member with rfl | member
      · exact smaller other inside
      · exact others other inside old member
    rw [List.flatMap_cons,itemBlocks_of_written here,List.reverse_cons,List.append_assoc,List.singleton_append,
      ← ih later rest next,← assign_above below]
    cases any with
    | true => exact decodeLoop_any component _ exclude
    | false => exact decodeLoop_plain component exclude (head_blocks later)

/-- No digest comes before an empty component with ANY. -/
def Plain (exclude : ExcludeMap) : Prop := (Component.empty,true) ∈ exclude → ∀ item ∈ exclude, Component.empty ≤ item.1

private theorem written_of_ne {item : Component × Bool} (other : item ≠ (Component.empty,true)) : Written item := by
  obtain ⟨component,any⟩ := item
  cases any with
  | false => simp [Written]
  | true =>
    have full : component.isEmpty = false := by
      rw [Component.isEmpty,← Bool.not_eq_true,List.isEmpty_iff]
      intro none
      refine other (Prod.ext (Component.eq_of_equals ?_ ?_) rfl)
      · exact component.formed.resolve_right fun digest => by simp [none] at digest
      · exact beq_iff_eq.mpr none
    simp [Written,full]

private theorem decode_plain {exclude : ExcludeMap} (ordered : Descending exclude) (nonempty : exclude ≠ []) (plain : exclude.Plain) :
    decode (exclude.blocks.map block) = (exclude,.ok ()) := by
  have ascending : exclude.reverse.Pairwise fun first second => first.1 < second.1 :=
    List.pairwise_reverse.mpr ordered
  have back : exclude.reverse.reverse = exclude := List.reverse_reverse exclude
  unfold blocks
  cases shape : exclude.reverse with
  | nil => exact absurd (List.reverse_eq_nil_iff.mp shape) nonempty
  | cons first items =>
    rw [shape] at ascending back
    obtain ⟨smaller,rest⟩ := List.pairwise_cons.mp ascending
    have different : ∀ item ∈ items, item ≠ first := by
      rintro item inside rfl
      exact lt_irrefl _ (smaller item inside)
    by_cases start : first = (Component.empty,true)
    · subst start
      have written : ∀ item ∈ items, Written item := fun item inside => written_of_ne (different item inside)
      have low : ∀ item ∈ items, ∀ old ∈ assign [] .empty true, old.1 < item.1 := by
        intro item inside old member
        rw [assign_above (fun _ none => absurd none List.not_mem_nil)] at member
        rw [List.mem_singleton.mp member]
        exact smaller item inside
      have whole := decodeLoop_items written rest low
      rw [assign_above (fun _ none => absurd none List.not_mem_nil),← List.reverse_cons,back] at whole
      rw [List.flatMap_cons]
      exact whole
    · have member : first ∈ exclude := List.mem_reverse.mp (shape ▸ List.mem_cons_self)
      have written : ∀ item ∈ first :: items, Written item := by
        refine List.forall_mem_cons.mpr ⟨written_of_ne start,fun item inside => written_of_ne ?_⟩
        rintro rfl
        -- the empty component would be below the first one
        have inside' : (Component.empty,true) ∈ exclude := List.mem_reverse.mp (shape ▸ List.mem_cons_of_mem _ inside)
        exact not_lt.mpr (plain inside' first member) (smaller _ inside)
      have low : ∀ item ∈ first :: items, ∀ old ∈ ([] : ExcludeMap), old.1 < item.1 :=
        fun _ _ _ none => absurd none List.not_mem_nil
      have whole := decodeLoop_items written ascending low
      rw [List.append_nil,back] at whole
      rw [← whole]
      have elements : (first :: items).flatMap itemBlocks =
          (first.1.type,first.1.value) :: ((if first.2 then [(Tlv.Any,[])] else []) ++ items.flatMap itemBlocks) := by
        rw [List.flatMap_cons,itemBlocks_of_written (written first List.mem_cons_self)]
        rfl
      rw [elements]
      exact if_neg (component_ne_any first.1)

/-- An empty component with ANY is written without its component. -/
theorem length_filter_blocks_le (items : List (Component × Bool)) :
    (((items.flatMap itemBlocks).map block).filter fun element => element.type ≠ Tlv.Any).length ≤
      (items.filter fun item => item ≠ (Component.empty,true)).length := by
  induction items with
  | nil => exact Nat.le_refl 0
  | cons item items ih =>
    rw [List.flatMap_cons,List.map_append,List.filter_append,List.length_append]
    by_cases start : item = (Component.empty,true)
    · subst start
      rw [List.filter_cons_of_neg (by simp)]
      simpa [itemBlocks,block,Block.make,Component.isEmpty,Component.empty,Component.generic] using ih
    · rw [List.filter_cons_of_pos (by simpa using start),List.length_cons,itemBlocks_of_written (written_of_ne start)]
      have single : (((item.1.type,item.1.value) :: if item.2 then [(Tlv.Any,[])] else []).map block).filter
          (fun element => element.type ≠ Tlv.Any) = [block (item.1.type,item.1.value)] := by
        have other : (block (item.1.type,item.1.value)).type ≠ Tlv.Any := component_ne_any item.1
        rw [List.map_cons,List.filter_cons_of_pos (by simpa using other)]
        cases item.2 <;> rfl
      rw [single,List.length_singleton]
      omega

private theorem length_decode_lt {exclude : ExcludeMap} (ordered : Descending exclude) (hidden : ¬ exclude.Plain) :
    (decode (exclude.blocks.map block)).1.length < exclude.length := by
  simp only [Plain,not_forall] at hidden
  obtain ⟨inside,item,member,before⟩ := hidden
  have ascending : exclude.reverse.Pairwise fun first second => first.1 < second.1 :=
    List.pairwise_reverse.mpr ordered
  have fewer : (exclude.reverse.filter fun item => item ≠ (Component.empty,true)).length < exclude.length := by
    rw [← @List.length_reverse _ exclude]
    refine List.length_filter_lt_length_iff_exists.mpr ⟨_,List.mem_reverse.mpr inside,?_⟩
    simp
  refine lt_of_le_of_lt ?_ fewer
  refine le_trans ?_ (length_filter_blocks_le exclude.reverse)
  cases shape : exclude.reverse with
  | nil =>
    rw [List.reverse_eq_nil_iff.mp shape] at member
    exact absurd member List.not_mem_nil
  | cons first items =>
    have start : first ≠ (Component.empty,true) := by
      rintro rfl
      rw [shape] at ascending
      have here : item ∈ (Component.empty,true) :: items := shape ▸ List.mem_reverse.mpr member
      rcases List.mem_cons.mp here with rfl | later
      · exact before (le_refl _)
      · exact before ((List.pairwise_cons.mp ascending).1 item later).le
    have loop := length_decodeLoop_le (((first :: items).flatMap itemBlocks).map block) []
    rw [List.length_nil,Nat.zero_add] at loop
    refine le_trans (Nat.le_of_eq ?_) loop
    unfold blocks
    rw [shape,List.flatMap_cons,itemBlocks_of_written (written_of_ne start)]
    exact congrArg (fun result : ExcludeMap × Except String Unit => result.1.length) (if_neg (component_ne_any first.1))

/-- What was written is read back, exactly when no digest comes before an empty component with ANY. -/
theorem decode_blocks_iff {exclude : ExcludeMap} (ordered : Descending exclude) (nonempty : exclude ≠ []) :
    decode (exclude.blocks.map block) = (exclude,.ok ()) ↔ exclude.Plain := by
  refine ⟨fun back => ?_,decode_plain ordered nonempty⟩
  by_contra hidden
  have less := length_decode_lt ordered hidden
  rw [back] at less
  exact lt_irrefl _ less

end ExcludeMap

private theorem zeroDigest_formed : Tlv.ImplicitSha256DigestComponent = Tlv.NameComponent ∨
    Tlv.ImplicitSha256DigestComponent = Tlv.ImplicitSha256DigestComponent ∧ (List.replicate 32 (0 : UInt8)).length = 32 :=
  Or.inr ⟨rfl,rfl⟩

namespace Exclude

/-- What `wireDecode` reads from a block. -/
def read (wire : Block) : ExcludeMap × Except String Unit :=
  if wire.type ≠ Tlv.Exclude then ([],.error "Unexpected TLV type when decoding Exclude")
  else match wire.parse with
    | .error message => ([],.error message)
    | .ok elements => ExcludeMap.decode elements

theorem descending_read (wire : Block) : Descending (read wire).1 := by
  have none : Descending ([] : ExcludeMap) := List.Pairwise.nil
  unfold read
  split
  · exact none
  · split
    · exact none
    · unfold ExcludeMap.decode
      split
      · exact none
      · split
        · exact ExcludeMap.descending_decodeLoop (ExcludeMap.descending_assign none _ _)
        · exact ExcludeMap.descending_decodeLoop none

/-- `wireDecode`, with the answer whether it throws. The wire is kept as soon as its type is right. -/
def wireDecode (wire : Block) : Exclude × Except String Unit :=
  (⟨(read wire).1,descending_read wire,if wire.type ≠ Tlv.Exclude then none else some wire⟩,(read wire).2)

/-- `wireEncode`, which keeps the wire it makes. -/
def wireEncode (exclude : Exclude) : Except String (Block × Exclude) :=
  match exclude.wire with
  | some wire => .ok (wire,exclude)
  | none => (exclude.entries.wireEncode).map fun wire => (wire,{ exclude with wire := some wire })

/-- `appendExclude`, which does not touch the wire. -/
def appendExclude (exclude : Exclude) (name : Component) (any : Bool) : Exclude :=
  ⟨exclude.entries.assign name any,ExcludeMap.descending_assign exclude.ordered name any,exclude.wire⟩

inductive Event where
  | change (operation : Operation)
  | append (name : Component) (any : Bool)
  | encode
  | decode (wire : Block)

def next (exclude : Exclude) : Event → Exclude
  | .change operation => exclude.step operation
  | .append name any => exclude.appendExclude name any
  | .encode => ((exclude.wireEncode).map Prod.snd).toOption.getD exclude
  | .decode wire => (wireDecode wire).1

/-- The event leaves no wire behind that is not the one of the entries: nothing is appended by
hand while there is a wire, and no malformed filter is decoded. -/
def Clean (exclude : Exclude) : Event → Prop
  | .append _ _ => exclude.wire = none
  | .decode wire => wire.type = Tlv.Exclude → (read wire).2 = .ok ()
  | _ => True

/-- The wire, if there is one, was made from the entries or read into them. -/
def Coherent (exclude : Exclude) : Prop :=
  ∀ wire ∈ exclude.wire, exclude.entries.wireEncode = .ok wire ∨ read wire = (exclude.entries,.ok ())

private theorem wire_step (exclude : Exclude) (operation : Operation) :
    exclude.step operation = exclude ∨ (exclude.step operation).wire = none := by
  have range : ∀ start stop, (exclude.excludeRange start stop).toOption.getD exclude = exclude ∨
      ((exclude.excludeRange start stop).toOption.getD exclude).wire = none := by
    intro start stop
    unfold excludeRange
    split
    · exact Or.inr rfl
    · exact Or.inl rfl
  cases operation with
  | excludeOne component =>
    change exclude.excludeOne component = exclude ∨ (exclude.excludeOne component).wire = none
    unfold excludeOne
    split
    · exact Or.inl rfl
    · exact Or.inr rfl
  | excludeRange start stop => exact range start stop
  | excludeBefore stop => exact range .empty stop
  | excludeAfter start => exact Or.inr rfl
  | clear => exact Or.inr rfl

private theorem coherent_of_none {exclude : Exclude} (none : exclude.wire = none) : exclude.Coherent := by
  intro wire inside
  rw [none] at inside
  cases inside

private theorem coherent_next {exclude : Exclude} {event : Event} (coherent : exclude.Coherent) (clean : exclude.Clean event) :
    (exclude.next event).Coherent := by
  cases event with
  | change operation =>
    change (exclude.step operation).Coherent
    rcases wire_step exclude operation with same | none
    · rwa [same]
    · exact coherent_of_none none
  | append name any =>
    have none : (exclude.appendExclude name any).wire = none := clean
    exact coherent_of_none none
  | encode =>
    change (((exclude.wireEncode).map Prod.snd).toOption.getD exclude).Coherent
    unfold wireEncode
    cases known : exclude.wire with
    | some wire => exact coherent
    | none =>
      cases made : exclude.entries.wireEncode with
      | error message => exact coherent
      | ok wire =>
        intro other inside
        cases inside
        exact Or.inl made
  | decode wire =>
    intro other inside
    by_cases type : wire.type = Tlv.Exclude
    · have same : (wireDecode wire).1.wire = some wire := if_neg (not_not.mpr type)
      rw [next,same] at inside
      cases inside
      exact Or.inr (Prod.ext rfl (clean type))
    · have none : (wireDecode wire).1.wire = none := if_pos type
      rw [next,none] at inside
      cases inside

private theorem type_lt_of_mem_blocks {entries : ExcludeMap} {element : Nat × List UInt8} (inside : element ∈ entries.blocks) :
    element.1 < 2^32 := by
  obtain ⟨item,-,here⟩ := List.mem_flatMap.mp inside
  rcases List.mem_append.mp here with written | any
  · split at written
    · rw [List.mem_singleton.mp written]
      rcases item.1.formed with generic | ⟨digest,-⟩
      · exact generic ▸ (by decide : Tlv.NameComponent < 2^32)
      · exact digest ▸ (by decide : Tlv.ImplicitSha256DigestComponent < 2^32)
    · exact absurd written List.not_mem_nil
  · split at any
    · rw [List.mem_singleton.mp any]
      decide
    · exact absurd any List.not_mem_nil

/-- What is encoded is read back, exactly when no digest comes before an empty component with ANY. -/
theorem read_wireEncode {entries : ExcludeMap} (ordered : Descending entries) {wire : Block}
    (encoded : entries.wireEncode = .ok wire) (small : wire.wire.length < 2^64) :
    read wire = (entries,.ok ()) ↔ entries.Plain := by
  unfold ExcludeMap.wireEncode at encoded
  split at encoded
  · cases encoded
  · rename_i nonempty
    cases encoded
    generalize made : Block.make Tlv.Exclude (entries.blocks.flatMap fun element =>
      (Block.make element.1 element.2).wire) = wire at small ⊢
    have typed : ¬ wire.type ≠ Tlv.Exclude := not_not.mpr (made ▸ rfl)
    have parsed : wire.parse = .ok (entries.blocks.map ExcludeMap.block) := by
      rw [← made] at small ⊢
      refine Block.parse_eq_ok.mpr ⟨?_,?_⟩
      · intro inner inside
        obtain ⟨element,written,rfl⟩ := List.mem_map.mp inside
        refine Block.hasWire_make _ _ (type_lt_of_mem_blocks written) ?_
        have part : (Block.make element.1 element.2).wire.length ≤
            (entries.blocks.flatMap fun element => (Block.make element.1 element.2).wire).length := by
          have member : (Block.make element.1 element.2).wire ∈
              entries.blocks.map fun element => (Block.make element.1 element.2).wire :=
            List.mem_map.mpr ⟨element,written,rfl⟩
          rw [List.flatMap_def]
          exact (List.sublist_flatten_of_mem member).length_le
        rw [Block.make_length] at part small
        omega
      · rw [List.flatMap_map]
        rfl
    unfold read
    rw [if_neg typed,parsed]
    exact ExcludeMap.decode_blocks_iff ordered (by simpa using nonempty)

/-- A filter that is encoded anew and decoded is the same filter, exactly when no digest comes before
an empty component with ANY. -/
theorem wireDecode_wireEncode {exclude after : Exclude} {wire : Block} (fresh : exclude.wire = none)
    (encoded : exclude.wireEncode = .ok (wire,after)) (small : wire.wire.length < 2^64) :
    (wireDecode wire).1.entries = exclude.entries ∧ (wireDecode wire).2 = .ok () ↔ exclude.entries.Plain := by
  unfold wireEncode at encoded
  rw [fresh] at encoded
  cases made : exclude.entries.wireEncode with
  | error message =>
    rw [made] at encoded
    cases encoded
  | ok known =>
    rw [made] at encoded
    cases encoded
    rw [← read_wireEncode exclude.ordered made small,Prod.ext_iff]
    rfl

def zeroDigest : Component := ⟨Tlv.ImplicitSha256DigestComponent,List.replicate 32 0,zeroDigest_formed⟩

/-- The digest alone and everything up to a generic component: the digest is read with ANY. -/
theorem wireDecode_wireEncode_digest :
    ¬ ((wireDecode (Block.make 16 (1 :: 32 :: List.replicate 32 0 ++ [19,0,8,1,1]))).1.entries =
          [(.generic [1],false),(.empty,true),(zeroDigest,false)] ∧
        (wireDecode (Block.make 16 (1 :: 32 :: List.replicate 32 0 ++ [19,0,8,1,1]))).2 = .ok ()) := by
  have ordered : Descending [(Component.generic [1],false),(.empty,true),(zeroDigest,false)] := by
    simp only [Descending,List.pairwise_cons,List.forall_mem_cons,Component.lt_iff]
    decide
  have exact := @wireDecode_wireEncode ⟨_,ordered,none⟩
    _ (Block.make 16 (1 :: 32 :: List.replicate 32 0 ++ [19,0,8,1,1])) rfl rfl (by decide)
  intro back
  have plain := exact.mp back (List.mem_cons_of_mem _ List.mem_cons_self) (zeroDigest,false)
    (List.mem_cons_of_mem _ (List.mem_cons_of_mem _ List.mem_cons_self))
  exact absurd plain (by decide)

/-- After clean events a wire that is answered is read as the entries of the filter, as long as
no digest comes before an empty component with ANY. -/
theorem wireEncode_run (events : List Event) (clean : Steps next Clean new events) (wire : Block) (after : Exclude)
    (encoded : (run next new events).wireEncode = .ok (wire,after)) (small : wire.wire.length < 2^64)
    (plain : (run next new events).entries.Plain) : read wire = ((run next new events).entries,.ok ()) := by
  have coherent : (run next new events).Coherent :=
    along_of_steps (fun _ _ => coherent_next) (coherent_of_none rfl) clean events List.prefix_rfl
  generalize run next new events = filter at coherent encoded plain ⊢
  unfold wireEncode at encoded
  cases known : filter.wire with
  | some wire =>
    rw [known] at encoded
    cases encoded
    rcases coherent wire known with made | whole
    · exact (read_wireEncode after.ordered made small).mpr plain
    · exact whole
  | none =>
    rw [known] at encoded
    cases made : filter.entries.wireEncode with
    | error message =>
      rw [made] at encoded
      cases encoded
    | ok fresh =>
      rw [made] at encoded
      cases encoded
      exact (read_wireEncode filter.ordered made small).mpr plain

/-- `ANY /01`, encoded and decoded. -/
theorem wireEncode_run_before :
    read (Block.make 16 [19,0,8,1,1]) = ([(.generic [1],false),(.empty,true)],.ok ()) :=
  wireEncode_run [.change (.excludeBefore (.generic [1]))] (steps_cons.mpr ⟨trivial,steps_nil⟩)
    (Block.make 16 [19,0,8,1,1])
    ⟨[(.generic [1],false),(.empty,true)],by simp [Descending,Component.lt_iff]; decide,some (Block.make 16 [19,0,8,1,1])⟩
    (by rfl) (by decide) (fun _ item inside => by revert item; decide)

end Exclude

end Ncfcc.NdnCxx
