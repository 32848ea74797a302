import Ncfcc.NdnCxx.InMemoryStorage
import Mathlib.Data.List.TakeWhile

/-! What is found in memory: for a name the first Data under it, for an Interest the first that
match, or the first that match in the last child. -/
namespace Ncfcc.NdnCxx.InMemoryStorage
open Ncfcc.Library
open Ncfcc.Nfd.Table (Interest Data ToldApart nameLess octets)

def childOf (interest : Interest) (data : Data) : Ncfcc.Name := data.fullName.take (interest.name.length + 1)

def firstOfLastChild (interest : Interest) (matching : List Data) : Option Data :=
  matching.getLast?.bind fun last => matching.find? fun data => childOf interest data = childOf interest last

/-- What an Interest is to find among Data in order. If the very first of them match, then they
are left aside in looking for the rightmost child as long as others match. -/
def answer (stored : List Data) (interest : Interest) : Option Data :=
  let matching := stored.filter interest.matchesData
  (stored.find? fun data => data.fullName = interest.name).or <|
    if hasLeftmostSelector interest then matching.head?
    else if stored.head?.any interest.matchesData && matching.tail ≠ [] then firstOfLastChild interest matching.tail
    else firstOfLastChild interest matching

section
variable {policy : Replacement} {storage : InMemoryStorage} {interest : Interest} {data : Data} {name : Ncfcc.Name}
  {names : List Ncfcc.Name}

theorem findName_mem (found : (storage.findName policy name).2 = some data) : data ∈ storage.cache := by
  unfold findName at found
  split at found
  · cases found
  · rename_i first rest shape
    split at found
    · cases found
      exact (List.dropWhile_sublist _).subset (shape ▸ List.mem_cons_self)
    · cases found

private theorem rightmost_mem {candidates : List Data} {current : Ncfcc.Name × Option Data}
    (found : (candidates.foldl (rightmostStep interest) current).2 = some data) : current.2 = some data ∨ data ∈ candidates := by
  induction candidates generalizing current with
  | nil => exact Or.inl found
  | cons candidate candidates ih =>
    rcases ih found with here | later
    · unfold rightmostStep at here
      dsimp only at here
      split at here
      · split at here
        · cases here
          exact Or.inr List.mem_cons_self
        · exact Or.inl here
      · exact Or.inl here
    · exact Or.inr (List.mem_cons_of_mem _ later)

private theorem selectChild_mem {start : Nat} (found : storage.selectChild interest start = some data) : data ∈ storage.cache := by
  unfold selectChild at found
  split at found
  · cases found
  · rename_i first rest shape
    have stored : ∀ other ∈ first :: rest, other ∈ storage.cache := fun other inside =>
      List.mem_of_mem_drop (shape ▸ inside)
    have behind : ∀ {keep : Data → Bool}, rest.takeWhile keep ⊆ storage.cache := fun inside =>
      stored _ (List.mem_cons_of_mem _ ((List.takeWhile_sublist _).subset inside))
    dsimp only at found
    split at found
    · split at found
      · cases found
        exact stored _ List.mem_cons_self
      · exact behind (List.mem_of_find?_eq_some found)
    · split at found
      · rename_i last
        cases found
        rcases rightmost_mem last with none | inside
        · cases none
        · exact behind inside
      · split at found
        · cases found
          exact stored _ List.mem_cons_self
        · cases found

theorem findInterest_mem (found : (storage.findInterest policy interest).2 = some data) : data ∈ storage.cache := by
  unfold InMemoryStorage.findInterest at found
  split at found
  · rename_i named
    cases found
    exact List.mem_of_find?_eq_some named
  · dsimp only at found
    split at found
    · cases found
    · split at found
      · rename_i selected
        cases found
        exact selectChild_mem selected
      · cases found

/-- In order, what is under a name comes first among what is not below it. -/
theorem under_first {items : List Data}
    (ordered : items.Pairwise fun first second => nameLess first.fullName second.fullName = true)
    (above : ∀ data ∈ items, ¬ nameLess data.fullName name = true) :
    items.takeWhile (fun data => name.isPrefixOf data.fullName) = items.filter fun data => name.isPrefixOf data.fullName := by
  refine (split_eq_filter (List.Pairwise.and_mem.mp ordered) ?_).1
  rintro first second ⟨here,-,less⟩ under
  have long := List.isPrefixOf_iff_prefix.mp under
  exact List.isPrefixOf_iff_prefix.mpr
    (Nfd.Table.prefix_of_names_between long (above first here) (Nfd.Table.nameLess_asymm less))

private theorem under_iff (apart : ToldApart names) (here : name ∈ names) (there : data.fullName ∈ names) :
    (octets name).isPrefixOf (octets data.fullName) = name.isPrefixOf data.fullName := by
  rw [Bool.eq_iff_iff,List.isPrefixOf_iff_prefix,List.isPrefixOf_iff_prefix]
  exact apart.prefix_iff here there List.prefix_rfl List.prefix_rfl

/-- A name finds the first Data under it. -/
theorem Sound.findName (sound : storage.Sound policy) (apart : ToldApart names) (here : name ∈ names)
    (known : storage.names ⊆ names) :
    (storage.findName policy name).2 = storage.cache.find? fun data => name.isPrefixOf data.fullName := by
  have found : (storage.lowerBound name).find? (fun data => name.isPrefixOf data.fullName) =
      storage.cache.find? fun data => name.isPrefixOf data.fullName := by
    rw [sound.lowerBound_eq,List.find?_filter]
    congr 1
    funext data
    rw [Bool.eq_iff_iff,decide_eq_true_iff,and_iff_right_iff_imp,Bool.not_eq_true']
    intro under
    exact Bool.eq_false_iff.mpr (Nfd.Table.not_nameLess_under (List.isPrefixOf_iff_prefix.mp under))
  have ordered := sound.ordered.sublist (List.dropWhile_sublist fun data => nameLess data.fullName name)
  have above : ∀ data ∈ storage.lowerBound name, ¬ nameLess data.fullName name = true := by
    intro data inside
    rw [sound.lowerBound_eq] at inside
    simpa using (List.mem_filter.mp inside).2
  have first := under_first ordered above
  rw [← found,← List.head?_filter]
  change _ = ((storage.lowerBound name).filter _).head?
  unfold InMemoryStorage.findName
  change List.takeWhile _ (storage.lowerBound name) = List.filter _ (storage.lowerBound name) at first
  rw [← first]
  cases shape : storage.lowerBound name with
  | nil => rfl
  | cons data rest =>
    have stored : data.fullName ∈ storage.names :=
      List.mem_map_of_mem ((List.dropWhile_sublist _).subset (shape ▸ List.mem_cons_self))
    dsimp only
    rw [under_iff apart here (known stored)]
    split
    · rename_i under
      rw [List.takeWhile_cons,if_pos under]
      rfl
    · rename_i missed
      rw [List.takeWhile_cons,if_neg missed]
      rfl

private theorem childOf_length (under : interest.name <+: data.name) : (childOf interest data).length = interest.name.length + 1 := by
  have length := under.length_le
  rw [childOf,List.length_take,Nfd.Table.Data.fullName,List.length_append,List.length_singleton]
  omega

private theorem under_childOf (interest : Interest) (data : Data) : childOf interest data <+: data.fullName := List.take_prefix _ _

/-- The Data of one child are neighbours. -/
theorem childOf_between {first middle last : Data} (under : interest.name <+: first.name)
    (before : nameLess first.fullName middle.fullName = true) (after : nameLess middle.fullName last.fullName = true)
    (same : childOf interest first = childOf interest last) : childOf interest middle = childOf interest last := by
  have above : ¬ nameLess middle.fullName (childOf interest last) = true := by
    intro less
    rw [← same] at less
    exact Nfd.Table.not_nameLess_under (under_childOf interest first) (Nfd.Table.nameLess_trans before less)
  have inside := Nfd.Table.prefix_of_names_between (under_childOf interest last) above (Nfd.Table.nameLess_asymm after)
  have length := childOf_length under
  rw [same] at length
  rw [List.prefix_iff_eq_take.mp inside,length]
  rfl

/-- The loop for the rightmost child holds the last child met and the first Data in it. -/
theorem rightmost_eq {matching : List Data}
    (ordered : matching.Pairwise fun first second => nameLess first.fullName second.fullName = true)
    (all : ∀ data ∈ matching, interest.matchesData data = true ∧ interest.name <+: data.name) (apart : ToldApart names)
    (known : ∀ data ∈ matching, data.fullName ∈ names) :
    matching.foldl (rightmostStep interest) ([],none) =
      ((matching.getLast?.map (childOf interest)).getD [],firstOfLastChild interest matching) := by
  induction matching using List.reverseRecOn with
  | nil => rfl
  | append_singleton front data ih =>
    rw [List.pairwise_append] at ordered
    obtain ⟨sorted,-,below⟩ := ordered
    have earlier := ih sorted (fun other inside => all other (List.mem_append_left _ inside)) fun other inside =>
      known other (List.mem_append_left _ inside)
    obtain ⟨matched,under⟩ := all data (List.mem_append_right _ List.mem_cons_self)
    have target : firstOfLastChild interest (front ++ [data]) =
        (front ++ [data]).find? fun other => childOf interest other = childOf interest data := by
      rw [firstOfLastChild,List.getLast?_concat]
      rfl
    rw [List.foldl_append,earlier,List.foldl_cons,List.foldl_nil,target,List.getLast?_concat,rightmostStep,if_pos matched]
    change (if List.isEmpty ((front.getLast?.map (childOf interest)).getD []) ||
      octets (childOf interest data) != octets ((front.getLast?.map (childOf interest)).getD []) then
        (childOf interest data,some data) else _) = _
    rw [List.find?_append]
    cases tail : front.getLast? with
    | none =>
      rw [List.getLast?_eq_none_iff.mp tail]
      simp
    | some last =>
      obtain ⟨others,shape⟩ := List.getLast?_eq_some_iff.mp tail
      have stored : last ∈ front := shape ▸ List.mem_append_right _ List.mem_cons_self
      have filled : childOf interest last ≠ [] :=
        List.ne_nil_of_length_pos (childOf_length (all last (List.mem_append_left _ stored)).2 ▸ Nat.succ_pos _)
      have current : firstOfLastChild interest front = front.find? fun other => childOf interest other = childOf interest last := by
        rw [firstOfLastChild,tail]
        rfl
      rw [current]
      by_cases same : childOf interest data = childOf interest last
      · have kept : ∃ found, front.find? (fun other => childOf interest other = childOf interest last) = some found :=
          Option.isSome_iff_exists.mp (List.find?_isSome.mpr ⟨last,stored,decide_eq_true rfl⟩)
        obtain ⟨found,here⟩ := kept
        rw [Option.map_some,Option.getD_some,if_neg (by simp [same,filled]),same,here]
        exact Prod.ext same.symm rfl
      · have missed : front.find? (fun other => childOf interest other = childOf interest data) = none := by
          refine List.find?_eq_none.mpr fun other inside alike => same ?_
          have equal := of_decide_eq_true alike
          rw [shape] at inside
          rcases List.mem_append.mp inside with before | here
          · rw [shape,List.pairwise_append] at sorted
            have less := sorted.2.2 other before last List.mem_cons_self
            exact (childOf_between (all other (List.mem_append_left _ (shape ▸ inside))).2 less
              (below last stored data List.mem_cons_self) equal).symm
          · rw [List.mem_singleton.mp here] at equal
            exact equal.symm
        have differ : octets (childOf interest data) ≠ octets (childOf interest last) := fun alike =>
          same (apart.eq (known data (List.mem_append_right _ List.mem_cons_self)) (known last (List.mem_append_left _ stored))
            (under_childOf interest data) (under_childOf interest last) alike)
        rw [Option.map_some,Option.getD_some,if_pos (by simp [differ]),missed]
        simp

private theorem firstOfLastChild_none {matching : List Data} : firstOfLastChild interest matching = none ↔ matching = [] := by
  constructor
  · intro none
    cases tail : matching.getLast? with
    | none => exact List.getLast?_eq_none_iff.mp tail
    | some last =>
      rw [firstOfLastChild,tail] at none
      have stored := List.mem_of_getLast? tail
      exact absurd (decide_eq_true rfl) (List.find?_eq_none.mp none last stored)
  · rintro rfl
    rfl

/-- What the search from a place on selects, if all behind that place is at or behind the Interest's name. -/
theorem selectChild_eq {first : Data} {rest : List Data} {start : Nat} (here : storage.cache.drop start = first :: rest)
    (ordered : rest.Pairwise fun first second => nameLess first.fullName second.fullName = true)
    (above : ∀ data ∈ rest, ¬ nameLess data.fullName interest.name = true)
    (unnamed : ∀ data ∈ rest, data.fullName ≠ interest.name) (apart : ToldApart names) (named : interest.name ∈ names)
    (known : ∀ data ∈ rest, data.fullName ∈ names) :
    storage.selectChild interest start =
      if hasLeftmostSelector interest then (first :: rest).find? interest.matchesData
      else (firstOfLastChild interest (rest.filter interest.matchesData)).or
        (if interest.matchesData first then some first else none) := by
  have under : ∀ data ∈ rest, interest.matchesData data = true → interest.name <+: data.name := fun data inside matched =>
    (Interest.name_of_matchesData apart named List.prefix_rfl (known data inside) matched).resolve_right fun same =>
      unnamed data inside same.symm
  have typed : (rest.takeWhile fun data => (octets interest.name).isPrefixOf (octets data.fullName)) =
      rest.takeWhile fun data => interest.name.isPrefixOf data.fullName :=
    takeWhile_congr fun data inside => under_iff apart named (known data inside)
  have candidates : (rest.takeWhile fun data => interest.name.isPrefixOf data.fullName).filter interest.matchesData =
      rest.filter interest.matchesData := by
    rw [under_first ordered above,List.filter_filter]
    refine List.filter_congr fun data inside => ?_
    rw [Bool.and_eq_left_iff_imp]
    intro matched
    exact List.isPrefixOf_iff_prefix.mpr ((under data inside matched).trans (List.prefix_append _ _))
  have loop : (rest.takeWhile fun data => interest.name.isPrefixOf data.fullName).foldl (rightmostStep interest) ([],none) =
      (rest.filter interest.matchesData).foldl (rightmostStep interest) ([],none) := by
    rw [← candidates,List.foldl_filter]
    congr 1
    funext current data
    unfold rightmostStep
    split <;> rfl
  have matching : ∀ data ∈ rest.filter interest.matchesData,
      interest.matchesData data = true ∧ interest.name <+: data.name := by
    intro data inside
    obtain ⟨stored,matched⟩ := List.mem_filter.mp inside
    exact ⟨matched,under data stored matched⟩
  have right := rightmost_eq (ordered.sublist List.filter_sublist) matching apart fun data inside =>
    known data (List.mem_of_mem_filter inside)
  unfold selectChild
  rw [here]
  dsimp only
  rw [typed,loop,right,← List.head?_filter,candidates]
  split
  · rw [List.find?_cons,List.head?_filter]
    cases interest.matchesData first <;> rfl
  · cases firstOfLastChild interest (rest.filter interest.matchesData) <;> rfl

private theorem findInterest_eq (storage : InMemoryStorage) (interest : Interest) : (storage.findInterest policy interest).2 =
    (storage.cache.find? fun data => data.fullName = interest.name).or
      (let bound := (storage.cache.takeWhile fun data => nameLess data.fullName interest.name).length
      if bound = storage.cache.length then none else storage.selectChild interest (bound - 1)) := by
  unfold InMemoryStorage.findInterest
  cases storage.cache.find? fun data => data.fullName = interest.name with
  | some data => rfl
  | none =>
    dsimp only
    split
    · rfl
    · cases storage.selectChild interest _ <;> rfl

/-- What is stored in front of the name of an Interest does not match it. -/
private theorem missed_below {stored : List Data} (apart : ToldApart names) (here : interest.name ∈ names)
    (listed : ∀ data ∈ stored, data.fullName ∈ names) :
    ∀ data ∈ stored.takeWhile (fun data => nameLess data.fullName interest.name), interest.matchesData data = false := by
  intro data inside
  have less : nameLess data.fullName interest.name = true :=
    List.mem_takeWhile_imp (p := fun data : Data => nameLess data.fullName interest.name) inside
  rw [Bool.eq_false_iff]
  intro matched
  have known := listed data ((List.takeWhile_sublist _).subset inside)
  rcases Interest.name_of_matchesData apart here List.prefix_rfl known matched with under | same
  · exact Nfd.Table.not_nameLess_under (under.trans (List.prefix_append _ _)) less
  · rw [← same] at less
    exact Nfd.Table.nameLess_irrefl _ less

/-- An Interest finds the Data it names in full, or else the first that match, or the first that match in the last child. -/
theorem Sound.findInterest (sound : storage.Sound policy) (apart : ToldApart names) (here : interest.name ∈ names)
    (known : storage.names ⊆ names) : (storage.findInterest policy interest).2 = answer storage.cache interest := by
  rw [findInterest_eq]
  unfold answer
  cases named : storage.cache.find? fun data => data.fullName = interest.name with
  | some data => rfl
  | none =>
    dsimp only
    rw [Option.none_or,Option.none_or]
    have unnamed : ∀ data ∈ storage.cache, data.fullName ≠ interest.name := fun data inside same =>
      List.find?_eq_none.mp named data inside (decide_eq_true same)
    have listed : ∀ data ∈ storage.cache, data.fullName ∈ names := fun data inside => known (List.mem_map_of_mem inside)
    have whole : storage.cache.takeWhile (fun data => nameLess data.fullName interest.name) ++ storage.lowerBound interest.name =
      storage.cache := List.takeWhile_append_dropWhile
    have early := missed_below apart here listed
    have above : ∀ data ∈ storage.lowerBound interest.name, ¬ nameLess data.fullName interest.name = true := by
      intro data inside
      rw [sound.lowerBound_eq] at inside
      simpa using (List.mem_filter.mp inside).2
    have ordered := sound.ordered
    generalize storage.cache.takeWhile (fun data => nameLess data.fullName interest.name) = below at whole early ⊢
    generalize storage.lowerBound interest.name = bound at whole above
    have none_below : below.filter interest.matchesData = [] :=
      List.filter_eq_nil_iff.mpr fun data inside => Bool.eq_false_iff.mp (early data inside)
    have matching : storage.cache.filter interest.matchesData = bound.filter interest.matchesData := by
      rw [← whole,List.filter_append,none_below,List.nil_append]
    cases bound with
    | nil =>
      rw [List.append_nil] at whole
      rw [← whole,if_pos rfl,whole,matching]
      simp [firstOfLastChild]
    | cons first rest =>
      have shorter : below.length ≠ storage.cache.length := by
        rw [← whole,List.length_append,List.length_cons]
        omega
      have inside : ∀ data ∈ first :: rest, data ∈ storage.cache := fun data there => whole ▸ List.mem_append_right _ there
      rw [if_neg shorter,matching]
      rw [← whole] at ordered
      cases front : below.getLast? with
      | none =>
        -- nothing is stored below the name: the search begins with the first entry
        rw [List.getLast?_eq_none_iff] at front
        subst front
        have begin : storage.cache.drop (([] : List Data).length - 1) = first :: rest := whole.symm
        rw [selectChild_eq begin (List.pairwise_cons.mp ordered).2 (fun data there => above data (List.mem_cons_of_mem _ there))
          (fun data there => unnamed data (inside data (List.mem_cons_of_mem _ there))) apart here
          fun data there => listed data (inside data (List.mem_cons_of_mem _ there)),← whole]
        split
        · exact (List.head?_filter ..).symm
        · cases matched : interest.matchesData first with
          | false =>
            rw [List.filter_cons_of_neg (by simp [matched])]
            simp [matched]
          | true =>
            rw [List.filter_cons_of_pos matched]
            cases others : rest.filter interest.matchesData with
            | nil => simp [firstOfLastChild]
            | cons second more =>
              have found : firstOfLastChild interest (second :: more) ≠ none := fun none =>
                List.cons_ne_nil _ _ (firstOfLastChild_none.mp none)
              obtain ⟨data,here⟩ := Option.ne_none_iff_exists'.mp found
              simp [matched,here]
      | some last =>
        -- the search begins with the entry in front of the name, which does not match
        obtain ⟨others,rfl⟩ := List.getLast?_eq_some_iff.mp front
        have unmatched := early last (List.mem_append_right _ List.mem_cons_self)
        have begin : storage.cache.drop ((others ++ [last]).length - 1) = last :: first :: rest := by
          rw [← whole,List.length_append,List.length_singleton,Nat.add_sub_cancel,List.append_assoc,List.drop_left]
          rfl
        have head : storage.cache.head?.any interest.matchesData = false := by
          rw [← whole]
          cases others with
          | nil => exact unmatched
          | cons other others => exact early other List.mem_cons_self
        rw [selectChild_eq begin (List.pairwise_append.mp ordered).2.1 above (fun data there => unnamed data (inside data there))
          apart here fun data there => listed data (inside data there),head,Bool.false_and]
        split
        · rw [List.find?_cons,unmatched,List.head?_filter]
        · rw [unmatched]
          simp

end

end Ncfcc.NdnCxx.InMemoryStorage
