import Ncfcc.NdnCxx.InMemoryFind
import Mathlib.Data.List.Sort

/-! Whole sessions with a storage: when insertions fail, and the queues that `fifo` and `lru` amount to. -/
namespace Ncfcc.NdnCxx.InMemoryStorage
open Ncfcc.Library
open Ncfcc.Nfd.Table (Interest Data ToldApart nameLess)

inductive Operation
  | insert (data : Data)
  | find (name : Ncfcc.Name)
  | findInterest (interest : Interest)
  | erase (pattern : Ncfcc.Name) (isPrefix : Bool)

def Operation.name : Operation → Ncfcc.Name
  | .insert data => data.fullName
  | .find name => name
  | .findInterest interest => interest.name
  | .erase pattern _ => pattern

def perform (policy : Replacement) (storage : InMemoryStorage) :
    Operation → Except StorageFailure (InMemoryStorage × Option Data)
  | .insert data => (storage.insert policy data).map fun after => (after,none)
  | .find name => .ok (storage.findName policy name)
  | .findInterest interest => .ok (storage.findInterest policy interest)
  | .erase pattern isPrefix => (storage.erase policy pattern isPrefix).map fun after => (after,none)

abbrev Session := InMemoryStorage × List (Option Data)

def session (policy : Replacement) (state : Session) (operation : Operation) : Option Session :=
  (state.1.perform policy operation).toOption.map fun after => (after.1,state.2 ++ [after.2])

section
variable {policy : Replacement} {storage : InMemoryStorage} {interest : Interest} {data : Data} {name : Ncfcc.Name}

def Stuck (policy : Replacement) (storage : InMemoryStorage) (operation : Operation) : Prop :=
  ∃ data, operation = .insert data ∧ storage.stores data.fullName = false ∧
    (storage.capacity = 0 ∨ policy = .persistent ∧ storage.nPackets = storage.limit)

private theorem findName_state (policy : Replacement) (storage : InMemoryStorage) (name : Ncfcc.Name) : (storage.findName policy name).1 =
    ((storage.findName policy name).2.map (storage.access policy)).getD storage := by
  unfold findName
  split
  · rfl
  · split <;> rfl

private theorem findInterest_state (policy : Replacement) (storage : InMemoryStorage) (interest : Interest) :
    (storage.findInterest policy interest).1 = if storage.stores interest.name then storage
    else ((storage.findInterest policy interest).2.map (storage.access policy)).getD storage := by
  have stored : storage.stores interest.name = (storage.cache.find? fun data => data.fullName = interest.name).isSome := by
    rw [Bool.eq_iff_iff,List.find?_isSome]
    exact List.any_eq_true
  unfold findInterest
  rw [stored]
  cases storage.cache.find? fun data => data.fullName = interest.name with
  | some data => rfl
  | none =>
    dsimp only
    split
    · rfl
    · cases storage.selectChild interest _ <;> rfl

/-- What an access that was found leaves. -/
theorem Sound.accessed (sound : storage.Sound policy) {found : Option Data}
    (inside : ∀ data, found = some data → data ∈ storage.cache) :
    ((found.map (storage.access policy)).getD storage).Sound policy ∧
      ((found.map (storage.access policy)).getD storage).limit = storage.limit := by
  cases found with
  | none => exact ⟨sound,rfl⟩
  | some data => exact ⟨sound.access (inside data rfl),rfl⟩

/-- Every operation keeps the storage sound, and only an insertion can get stuck. -/
theorem Sound.perform (sound : storage.Sound policy) (operation : Operation) :
    (Stuck policy storage operation ∧ storage.perform policy operation = .error .noFreeEntry) ∨
    (¬ Stuck policy storage operation ∧ ∃ after result, storage.perform policy operation = .ok (after,result) ∧
      after.Sound policy ∧ after.limit = storage.limit) := by
  cases operation with
  | insert data =>
    cases stored : storage.stores data.fullName with
    | true =>
      refine Or.inr ⟨?_,storage,none,?_,sound,rfl⟩
      · rintro ⟨other,same,new,-⟩
        cases same
        rw [stored] at new
        cases new
      · change (storage.insert policy data).map _ = _
        rw [InMemoryStorage.insert,if_pos stored]
        rfl
    | false =>
      have inserted := sound.insert stored
      split at inserted
      · rename_i none
        refine Or.inl ⟨⟨data,rfl,stored,none⟩,?_⟩
        change (storage.insert policy data).map _ = _
        rw [inserted]
        rfl
      · rename_i some
        obtain ⟨room,made,done,after⟩ := inserted
        refine Or.inr ⟨?_,_,none,?_,after,made.limit⟩
        · rintro ⟨other,same,-,failing⟩
          cases same
          exact some failing
        · change (storage.insert policy data).map _ = _
          rw [done]
          rfl
  | find name =>
    refine Or.inr ⟨?_,(storage.findName policy name).1,(storage.findName policy name).2,rfl,?_⟩
    · rintro ⟨data,same,-⟩
      cases same
    · rw [findName_state]
      exact sound.accessed fun data => findName_mem
  | findInterest interest =>
    refine Or.inr ⟨?_,(storage.findInterest policy interest).1,(storage.findInterest policy interest).2,rfl,?_⟩
    · rintro ⟨data,same,-⟩
      cases same
    · rw [findInterest_state]
      split
      · exact ⟨sound,rfl⟩
      · exact sound.accessed fun data => findInterest_mem
  | erase pattern isPrefix =>
    obtain ⟨after,done,left,limit,-⟩ := sound.erase pattern isPrefix
    refine Or.inr ⟨?_,after,none,?_,left,limit⟩
    · rintro ⟨data,same,-⟩
      cases same
    · change (storage.erase policy pattern isPrefix).map _ = _
      rw [done]
      rfl

private theorem session_step {state after : Session} {operation : Operation} (sound : state.1.Sound policy)
    (stepped : session policy state operation = some after) : after.1.Sound policy ∧ after.1.limit = state.1.limit := by
  obtain ⟨⟨left,result⟩,done,rfl⟩ := Option.map_eq_some_iff.mp stepped
  rcases sound.perform operation with ⟨-,failed⟩ | ⟨-,next,found,carried,kept⟩
  · rw [failed] at done
    cases done
  · rw [carried] at done
    cases done
    exact kept

private theorem session_none {state : Session} {operation : Operation} (sound : state.1.Sound policy) :
    session policy state operation = none ↔ Stuck policy state.1 operation := by
  unfold session
  rcases sound.perform operation with ⟨stuck,failed⟩ | ⟨free,next,found,carried,-⟩
  · rw [failed]
    exact iff_of_true rfl stuck
  · rw [carried]
    exact iff_of_false (Option.some_ne_none _) free

/-- In every session the storage is sound. It is cut short exactly by inserting new Data at a capacity of
zero, or at the limit of a storage that evicts nothing. -/
theorem session_run (policy : Replacement) (limit : Nat) (operations : List Operation) :
    (∀ final, run (attempt (session policy)) (some (new limit,[])) operations = some final →
      final.1.Sound policy ∧ final.1.limit = limit) ∧
    (run (attempt (session policy)) (some (new limit,[])) operations = none ↔
      ∃ before operation current, before ++ [operation] <+: operations ∧
        run (attempt (session policy)) (some (new limit,[])) before = some current ∧ Stuck policy current.1 operation) := by
  have sound : ∀ taken final, run (attempt (session policy)) (some (new limit,[])) taken = some final →
      final.1.Sound policy ∧ final.1.limit = limit := by
    intro taken final reached
    refine attempt_invariant (P := fun state : Session => state.1.Sound policy ∧ state.1.limit = limit) ?_ ?_ reached
    · rintro state operation after ⟨before,same⟩ stepped
      obtain ⟨kept,unchanged⟩ := session_step before stepped
      exact ⟨kept,unchanged.trans same⟩
    · exact ⟨sound_new policy limit,rfl⟩
  refine ⟨sound operations,attempt_none_iff.trans ?_⟩
  refine exists_congr fun before => exists_congr fun operation => exists_congr fun current => ?_
  refine and_congr_right fun _ => and_congr_right fun here => ?_
  exact session_none (sound before current here).1

/-- Erasing from an empty storage four times leaves no capacity: nothing can be inserted any more. -/
example (data : Data) : run (attempt (session .lru)) (some (new 1000,[]))
    (List.replicate 4 (.erase [] true) ++ [.insert data]) = none := rfl

end

/-! The queues: what is stored in the order in which it is to be evicted. -/

def inOrder (queue : List Data) : List Data :=
  queue.insertionSort fun first second => ¬ nameLess second.fullName first.fullName = true

def holds (queue : List Data) (name : Ncfcc.Name) : Bool := queue.any fun data => data.fullName = name

/-- With `lru` what was found goes to the back. -/
def touch (policy : Replacement) (queue : List Data) (data : Data) : List Data :=
  if policy = .lru then (queue.filter fun other => other.fullName ≠ data.fullName) ++ [data] else queue

/-- The operations on a queue, the Data in front of which is dropped when new Data come at the limit. -/
def serve (policy : Replacement) (limit : Nat) (state : List Data × List (Option Data)) (operation : Operation) :
    List Data × List (Option Data) :=
  let queue := state.1
  match operation with
  | .insert data =>
    (if holds queue data.fullName then queue else (if queue.length = limit then queue.tail else queue) ++ [data],state.2 ++ [none])
  | .find name =>
    let found := (inOrder queue).find? fun data => name.isPrefixOf data.fullName
    ((found.map (touch policy queue)).getD queue,state.2 ++ [found])
  | .findInterest interest =>
    let found := answer (inOrder queue) interest
    (if holds queue interest.name then queue else (found.map (touch policy queue)).getD queue,state.2 ++ [found])
  | .erase pattern isPrefix =>
    (if isPrefix then if holds queue pattern then queue else queue.filter fun data => !pattern.isPrefixOf data.name
      else queue.filter fun data => data.fullName ≠ pattern,state.2 ++ [none])

section
variable {policy : Replacement} {limit : Nat} {queue : List Data} {data : Data}

private theorem answer_mem {stored : List Data} (found : answer stored interest = some data) : data ∈ stored := by
  have child : ∀ matching, firstOfLastChild interest matching = some data → data ∈ matching := by
    intro matching here
    obtain ⟨last,-,first⟩ := Option.bind_eq_some_iff.mp here
    exact List.mem_of_find?_eq_some first
  unfold answer at found
  rcases Option.or_eq_some_iff.mp found with named | ⟨-,matched⟩
  · exact List.mem_of_find?_eq_some named
  · split at matched
    · exact List.mem_of_mem_filter (List.mem_of_head? matched)
    · split at matched
      · exact List.mem_of_mem_filter (List.mem_of_mem_tail (child _ matched))
      · exact List.mem_of_mem_filter (child _ matched)

private theorem touched_mem {found : Option Data} (inside : ∀ other, found = some other → other ∈ inOrder queue)
    (there : data ∈ (found.map (touch policy queue)).getD queue) : data ∈ queue := by
  cases found with
  | none => exact there
  | some other =>
    have stored := (List.perm_insertionSort _ queue).subset (inside other rfl)
    change data ∈ touch policy queue other at there
    unfold touch at there
    split at there
    · rcases List.mem_append.mp there with kept | last
      · exact List.mem_of_mem_filter kept
      · rwa [List.mem_singleton.mp last]
    · exact there

/-- Only an insertion brings new Data into the queue. -/
theorem serve_mem {state : List Data × List (Option Data)} {operation : Operation}
    (there : data ∈ (serve policy limit state operation).1) : data ∈ state.1 ∨ operation = .insert data := by
  cases operation with
  | insert other =>
    change data ∈ (if holds state.1 other.fullName then state.1 else _) at there
    split at there
    · exact Or.inl there
    · rcases List.mem_append.mp there with kept | last
      · split at kept
        · exact Or.inl (List.mem_of_mem_tail kept)
        · exact Or.inl kept
      · exact Or.inr (congrArg _ (List.mem_singleton.mp last).symm)
  | find name => exact Or.inl (touched_mem (fun _ found => List.mem_of_find?_eq_some found) there)
  | findInterest interest =>
    change data ∈ (if holds state.1 interest.name then state.1 else _) at there
    split at there
    · exact Or.inl there
    · exact Or.inl (touched_mem (fun _ found => answer_mem found) there)
  | erase pattern isPrefix =>
    change data ∈ (if isPrefix then if holds state.1 pattern then state.1 else _ else _) at there
    split at there
    · split at there
      · exact Or.inl there
      · exact Or.inl (List.mem_of_mem_filter there)
    · exact Or.inl (List.mem_of_mem_filter there)

private theorem served_names (policy : Replacement) (limit : Nat) (operations : List Operation) :
    ∀ data ∈ (run (serve policy limit) ([],[]) operations).1, data.fullName ∈ operations.map Operation.name := by
  induction operations using List.reverseRecOn with
  | nil => exact fun _ inside => absurd inside List.not_mem_nil
  | append_singleton before operation ih =>
    intro data there
    rw [run_concat] at there
    rw [List.map_append]
    rcases serve_mem there with kept | rfl
    · exact List.mem_append_left _ (ih data kept)
    · exact List.mem_append_right _ List.mem_cons_self

end

/-- The queue holds what is stored, in the order of the cleanup index. -/
structure Follows (storage : InMemoryStorage) (queue : List Data) : Prop where
  same : storage.cache.Perm queue
  tracked : storage.tracked = queue.map Nfd.Table.Data.fullName

section
variable {policy : Replacement} {storage after : InMemoryStorage} {queue : List Data} {data : Data}

theorem Follows.stores (follows : Follows storage queue) (name : Ncfcc.Name) :
    holds queue name = storage.stores name := by
  rw [Bool.eq_iff_iff,holds,InMemoryStorage.stores,List.any_eq_true,List.any_eq_true]
  exact exists_congr fun data => and_congr_left fun _ => follows.same.symm.mem_iff

theorem Follows.distinct (follows : Follows storage queue) (sound : storage.Sound policy) :
    (queue.map Nfd.Table.Data.fullName).Nodup :=
  (follows.same.map Nfd.Table.Data.fullName).nodup_iff.mp (names_nodup sound.ordered)

private theorem not_nameLess_trans {first second third : Ncfcc.Name} (left : ¬ nameLess second first = true)
    (right : ¬ nameLess third second = true) : ¬ nameLess third first = true := by
  intro less
  rcases Nfd.Table.compareNames_cases second first with ⟨-,here⟩ | ⟨-,here⟩ | ⟨-,here⟩
  · exact left here
  · exact right (Nfd.Table.nameLess_trans less here)
  · rw [here] at right
    exact right less

theorem Follows.cache_eq (follows : Follows storage queue) (sound : storage.Sound policy) : inOrder queue = storage.cache := by
  have total : Std.Total fun first second : Data => ¬ nameLess second.fullName first.fullName = true :=
    ⟨fun first second => or_iff_not_imp_left.mpr fun less => Nfd.Table.nameLess_asymm (not_not.mp less)⟩
  have transitive : IsTrans Data fun first second => ¬ nameLess second.fullName first.fullName = true :=
    ⟨fun _ _ _ => not_nameLess_trans⟩
  have permuted := (List.perm_insertionSort (fun first second : Data => ¬ nameLess second.fullName first.fullName = true) queue).trans
    follows.same.symm
  refine permuted.eq_of_pairwise ?_ (List.pairwise_insertionSort _ queue) (sound.ordered.imp Nfd.Table.nameLess_asymm)
  intro first second here there notGreater notLess
  have same : first.fullName = second.fullName := by
    rcases Nfd.Table.compareNames_cases first.fullName second.fullName with ⟨-,less⟩ | ⟨-,less⟩ | ⟨-,equal⟩
    · exact absurd less notLess
    · exact absurd less notGreater
    · exact equal
  exact List.inj_on_of_nodup_map (names_nodup sound.ordered) (permuted.subset here) there same

/-- What is filtered out of the storage is filtered out of the queue. -/
theorem Follows.filter (follows : Follows storage queue) (evicts : policy ≠ .persistent) {keep : Data → Bool}
    (sound : storage.Sound policy) (cache : after.cache = storage.cache.filter keep) (order : KeepsOrder policy storage after) :
    Follows after (queue.filter keep) := by
  refine ⟨cache ▸ follows.same.filter keep,?_⟩
  rw [order evicts,follows.tracked,List.filter_map]
  refine congrArg (List.map Nfd.Table.Data.fullName) (List.filter_congr fun data inside => ?_)
  have stored := follows.same.symm.subset inside
  rw [Bool.eq_iff_iff]
  change after.stores data.fullName = true ↔ _
  rw [stores_iff,names,cache,List.mem_map]
  constructor
  · rintro ⟨other,kept,same⟩
    obtain ⟨there,passes⟩ := List.mem_filter.mp kept
    rwa [← List.inj_on_of_nodup_map (names_nodup sound.ordered) there stored same]
  · exact fun passes => ⟨data,List.mem_filter.mpr ⟨stored,passes⟩,rfl⟩

theorem Follows.access (follows : Follows storage queue) (queues : policy = .fifo ∨ policy = .lru) (sound : storage.Sound policy)
    (inside : data ∈ storage.cache) : Follows (storage.access policy data) (touch policy queue data) := by
  rcases queues with rfl | rfl
  · exact follows
  · have distinct := follows.distinct sound
    have whole : (data :: queue.filter fun other => other.fullName ≠ data.fullName).Perm queue := by
      have differs : data ∉ queue.filter fun other => other.fullName ≠ data.fullName := fun there => by
        simpa using (List.mem_filter.mp there).2
      have nodup : queue.Nodup := distinct.of_map
      refine (List.perm_ext_iff_of_nodup (List.nodup_cons.mpr ⟨differs,nodup.filter _⟩) nodup).mpr fun other => ?_
      have stored := follows.same.subset inside
      rw [List.mem_cons,List.mem_filter,decide_eq_true_iff]
      constructor
      · rintro (rfl | ⟨there,-⟩)
        · exact stored
        · exact there
      · intro there
        by_cases same : other.fullName = data.fullName
        · exact Or.inl (List.inj_on_of_nodup_map distinct there stored same)
        · exact Or.inr ⟨there,same⟩
    refine ⟨follows.same.trans ((List.perm_append_singleton _ _).trans whole).symm,?_⟩
    change List.map CleanupEntry.name (storage.cleanupIndex.eraseP (fun entry => entry.name = data.fullName) ++ [_]) = _
    have tracked : (storage.cleanupIndex.map CleanupEntry.name).Nodup := by
      change storage.tracked.Nodup
      rwa [follows.tracked]
    rw [List.map_append,map_eraseP_key tracked]
    change storage.tracked.erase _ ++ _ = _
    rw [follows.tracked,← map_eraseP_key distinct,eraseP_key distinct]
    change _ = List.map Nfd.Table.Data.fullName ((queue.filter fun other => other.fullName ≠ data.fullName) ++ [data])
    rw [List.map_append]
    rfl

/-- What the room for new Data leaves of the queue. -/
theorem Follows.room {room : InMemoryStorage} (follows : Follows storage queue) (evicts : policy ≠ .persistent)
    (sound : storage.Sound policy) (made : Room policy storage room) (free : room.freeEntries ≠ 0) :
    Follows room (if queue.length = storage.limit then queue.tail else queue) := by
  have length : storage.nPackets = queue.length := sound.packets.trans follows.same.length_eq
  have limited := sound.limited
  have pool := sound.pool
  split
  · rename_i full
    obtain ⟨entry,rest,shape,rfl⟩ := made.evicts evicts (length.trans full) free
    have tracked := follows.tracked
    have distinct := follows.distinct sound
    rw [InMemoryStorage.tracked,shape,List.map_cons] at tracked
    cases queue with
    | nil => cases tracked
    | cons first queue =>
      obtain ⟨named,others⟩ := List.cons.inj tracked
      refine ⟨?_,others⟩
      have gone : (first :: queue).filter (fun data => data.fullName ≠ entry.name) = queue := by
        rw [← eraseP_key distinct,List.eraseP_cons,decide_eq_true named.symm,cond_true]
      change (storage.cache.eraseP fun data => data.fullName = entry.name).Perm _
      rw [eraseP_key (names_nodup sound.ordered)]
      exact (follows.same.filter _).trans (.of_eq gone)
  · rename_i below
    obtain ⟨cache,index⟩ := made.keeps (by omega)
    exact ⟨cache ▸ follows.same,(congrArg (List.map CleanupEntry.name) index).trans follows.tracked⟩

theorem Follows.enter (follows : Follows storage queue) (queues : policy = .fifo ∨ policy = .lru) (data : Data) :
    Follows (storage.enter policy data) (queue ++ [data]) := by
  refine ⟨(insertByName_perm _ _).trans ((follows.same.cons _).trans (List.perm_append_singleton _ _).symm),?_⟩
  have entered : (storage.enter policy data).tracked = storage.tracked ++ [data.fullName] := by
    rcases queues with rfl | rfl
    · exact List.map_append ..
    · exact List.map_append ..
  rw [entered,follows.tracked,List.map_append]
  rfl

/-- Data that are found are touched in the queue as they are in the storage. -/
theorem Follows.accessed (follows : Follows storage queue) (queues : policy = .fifo ∨ policy = .lru)
    (sound : storage.Sound policy) (found : Option Data) (inside : ∀ data, found = some data → data ∈ storage.cache) :
    Follows ((found.map (storage.access policy)).getD storage) ((found.map (touch policy queue)).getD queue) := by
  cases found with
  | none => exact follows
  | some data => exact follows.access queues sound (inside data rfl)

theorem Follows.insert (follows : Follows storage queue) (queues : policy = .fifo ∨ policy = .lru)
    (evicts : policy ≠ .persistent) (sound : storage.Sound policy) (done : storage.insert policy data = .ok after) :
    Follows after (if holds queue data.fullName then queue
      else (if queue.length = storage.limit then queue.tail else queue) ++ [data]) := by
  rw [follows.stores]
  cases stored : storage.stores data.fullName with
  | true =>
    rw [InMemoryStorage.insert,if_pos stored] at done
    cases done
    exact follows
  | false =>
    have inserted := sound.insert stored
    split at inserted
    · rw [inserted] at done
      cases done
    · rename_i some
      obtain ⟨room,made,carried,-⟩ := inserted
      rw [carried] at done
      cases done
      exact (follows.room evicts sound made (mt made.none.mp some)).enter queues data

theorem Follows.erase {names : List Ncfcc.Name} {pattern : Ncfcc.Name} {isPrefix : Bool} (follows : Follows storage queue)
    (evicts : policy ≠ .persistent) (sound : storage.Sound policy) (apart : ToldApart names) (named : pattern ∈ names)
    (known : storage.names ⊆ names) (done : storage.erase policy pattern isPrefix = .ok after) :
    Follows after (if isPrefix then if holds queue pattern then queue else queue.filter fun data => !pattern.isPrefixOf data.name
      else queue.filter fun data => data.fullName ≠ pattern) := by
  obtain ⟨final,carried,-,-,order,cache⟩ := sound.erase pattern isPrefix
  rw [carried] at done
  cases done
  rw [follows.stores]
  cases isPrefix with
  | false => exact follows.filter evicts sound cache order
  | true =>
    rw [if_pos rfl,sound.kept_eq apart named known] at cache
    simp only [if_true]
    rw [if_congr stores_iff rfl rfl]
    split
    · rename_i stored
      rw [if_pos stored] at cache
      have kept := follows.filter evicts sound (cache.trans (List.filter_true _).symm) order
      rwa [List.filter_true] at kept
    · rename_i missing
      rw [if_neg missing] at cache
      exact follows.filter evicts sound cache order

/-- A step of the session is the step on the queue. -/
theorem Follows.step {state next : Session} {operation : Operation} {names : List Ncfcc.Name} (follows : Follows state.1 queue)
    (queues : policy = .fifo ∨ policy = .lru) (sound : state.1.Sound policy) (apart : ToldApart names)
    (named : operation.name ∈ names) (known : state.1.names ⊆ names) (stepped : session policy state operation = some next) :
    Follows next.1 (serve policy state.1.limit (queue,state.2) operation).1 ∧
      next.2 = (serve policy state.1.limit (queue,state.2) operation).2 := by
  have evicts : policy ≠ .persistent := by
    rintro rfl
    rcases queues with same | same <;> cases same
  obtain ⟨⟨left,result⟩,done,rfl⟩ := Option.map_eq_some_iff.mp stepped
  cases operation with
  | insert data =>
    change ((state.1.insert policy data).map _).toOption = _ at done
    cases inserted : state.1.insert policy data with
    | error failure =>
      rw [inserted] at done
      cases done
    | ok after =>
      rw [inserted] at done
      cases done
      exact ⟨follows.insert queues evicts sound inserted,rfl⟩
  | find name =>
    change name ∈ names at named
    have found := sound.findName apart named known
    have here := findName_state policy state.1 name
    rw [Option.some.inj done] at found here
    change Follows left ((((inOrder queue).find? fun data => name.isPrefixOf data.fullName).map _).getD queue) ∧
      state.2 ++ [result] = state.2 ++ [(inOrder queue).find? fun data => name.isPrefixOf data.fullName]
    rw [follows.cache_eq sound,← found]
    refine ⟨?_,rfl⟩
    change left = _ at here
    rw [here]
    exact follows.accessed queues sound result fun data same => List.mem_of_find?_eq_some (found.symm.trans same)
  | findInterest interest =>
    change interest.name ∈ names at named
    have found := sound.findInterest apart named known
    have here := findInterest_state policy state.1 interest
    rw [Option.some.inj done] at found here
    change Follows left (if holds queue interest.name then queue else ((answer (inOrder queue) interest).map _).getD queue) ∧
      state.2 ++ [result] = state.2 ++ [answer (inOrder queue) interest]
    rw [follows.cache_eq sound,← found,follows.stores]
    refine ⟨?_,rfl⟩
    change left = _ at here
    rw [here]
    split
    · exact follows
    · exact follows.accessed queues sound result fun data same => answer_mem (found.symm.trans same)
  | erase pattern isPrefix =>
    change ((state.1.erase policy pattern isPrefix).map _).toOption = _ at done
    cases erased : state.1.erase policy pattern isPrefix with
    | error failure =>
      rw [erased] at done
      cases done
    | ok after =>
      rw [erased] at done
      cases done
      exact ⟨follows.erase evicts sound apart named known erased,rfl⟩

/-- With `fifo` and with `lru` the storage answers every session that is not cut short as the queue does, and stores what
the queue holds, at most as much as the limit. The session's names are told apart by their octets: the storage is in
the order of the types of components, which the tests for prefixes leave out. -/
theorem queue_run (queues : policy = .fifo ∨ policy = .lru) {limit : Nat} {operations : List Operation} {final : Session}
    (apart : ToldApart (operations.map Operation.name))
    (reached : run (attempt (session policy)) (some (new limit,[])) operations = some final) :
    let reference := run (serve policy limit) ([],[]) operations
    final.2 = reference.2 ∧ final.1.cache = inOrder reference.1 ∧ reference.1.length ≤ limit := by
  intro reference
  have all : ToldApart (operations.map Operation.name) → (final.1.Sound policy ∧ final.1.limit = limit) ∧
      Follows final.1 reference.1 ∧ final.2 = reference.2 := by
    refine attempt_history (P := fun state taken => ToldApart (taken.map Operation.name) →
      (state.1.Sound policy ∧ state.1.limit = limit) ∧
      Follows state.1 (run (serve policy limit) ([],[]) taken).1 ∧ state.2 = (run (serve policy limit) ([],[]) taken).2) ?_ ?_ reached
    · intro state before operation after earlier stepped apart
      have fewer : before.map Operation.name ⊆ (before ++ [operation]).map Operation.name :=
        List.map_subset _ (List.subset_append_left _ _)
      obtain ⟨⟨sound,same⟩,follows,answers⟩ := earlier (apart.subset fewer)
      obtain ⟨kept,unchanged⟩ := session_step sound stepped
      refine ⟨⟨kept,unchanged.trans same⟩,?_⟩
      have named : operation.name ∈ (before ++ [operation]).map Operation.name :=
        List.mem_map_of_mem (List.mem_append_right _ List.mem_cons_self)
      have known : state.1.names ⊆ (before ++ [operation]).map Operation.name := by
        intro name stored
        obtain ⟨data,inside,rfl⟩ := List.mem_map.mp stored
        exact fewer (served_names policy limit before data (follows.same.subset inside))
      rw [run_concat]
      have next := follows.step queues sound apart named known stepped
      rwa [same,answers] at next
    · exact fun _ => ⟨⟨sound_new policy limit,rfl⟩,⟨List.Perm.nil,rfl⟩,rfl⟩
  obtain ⟨⟨sound,same⟩,follows,answers⟩ := all apart
  refine ⟨answers,(follows.cache_eq sound).symm,?_⟩
  have length := follows.same.length_eq
  have packets := sound.packets
  have pool := sound.pool
  have limited := sound.limited
  omega

end

private theorem letterDigest_length (octet : UInt8) : (List.replicate 32 octet).length = 32 := List.length_replicate

def letter (octet : UInt8) : Data := ⟨[[8,1,octet]],⟨List.replicate 32 octet,letterDigest_length octet⟩,none⟩

def lookups : List Operation :=
  [.insert (letter 1),.insert (letter 2),.find (letter 1).name,.insert (letter 3),.find (letter 2).name]

/-- What was looked up stays when the third of three Data comes to a storage for two. -/
theorem queue_run_lookups : ∃ final, run (attempt (session .lru)) (some (new 2,[])) lookups = some final ∧
    final.2 = [none,none,some (letter 1),none,none] ∧ final.1.cache = [letter 1,letter 3] := by
  have carried : (run (attempt (session .lru)) (some (new 2,[])) lookups).isSome = true := rfl
  obtain ⟨final,reached⟩ := Option.isSome_iff_exists.mp carried
  obtain ⟨answers,cache,-⟩ := queue_run (Or.inr rfl) (by decide) reached
  exact ⟨final,reached,answers,cache⟩

end Ncfcc.NdnCxx.InMemoryStorage
