import Ncfcc.Library.DepthFirst
import Ncfcc.Library.Iteration
import Mathlib.Data.Fintype.Sum

/-! Installing global routers. A router is attached to a node or a channel before those of its neighbours are
installed, and a neighbour that has one is left as it is. -/
namespace Ncfcc.Helper
open Ncfcc.Library

/-- Nodes and channels with their devices. A node without the stack has no face table, and a face may have no
device. A device with a channel is one of its devices, which are all different. -/
structure DeviceNetwork (Node Channel Device Face : Type) where
  faceTable : Node → Option (List Face)
  netDevice : Face → Option Device
  channel : Device → Option Channel
  devices : Channel → List Device
  node : Device → Option Node
  attached : ∀ device shared, channel device = some shared → device ∈ devices shared
  distinct : ∀ shared, (devices shared).Nodup

abbrev Owner (Node Channel : Type) := Node ⊕ Channel

abbrev Routers (Node Channel Face : Type) := Marks (Owner Node Channel) (Option Face)

namespace DeviceNetwork
variable {Node Channel Device Face : Type}

def connection (network : DeviceNetwork Node Channel Device Face) (face : Face) : Option (Face × Device × Channel) :=
  (network.netDevice face).bind fun device => (network.channel device).map fun shared => (face,device,shared)

section
variable [DecidableEq Node] [DecidableEq Channel] [DecidableEq Device] (network : DeviceNetwork Node Channel Device Face)
  (installOther : Owner Node Channel → Routers Node Channel Face → Except Stop (Routers Node Channel Face))

def incidency (owner : Owner Node Channel) (face : Option Face) (routers : Routers Node Channel Face) (device : Device) :
    Except Stop (Routers Node Channel Face) :=
  match network.node device with
  | none => .error .assertion
  | some node => followEdge installOther owner routers (face,.inl node)

def installFace (node : Node) (routers : Routers Node Channel Face) (face : Face) : Except Stop (Routers Node Channel Face) :=
  match network.connection face with
  | none => .ok routers
  | some (face,device,shared) =>
    if (network.devices shared).length = 2 then
      (network.devices shared).foldlM (fun routers otherSide =>
        if device = otherSide then .ok routers else network.incidency installOther (.inl node) (some face) routers otherSide) routers
    else followEdge installOther (.inl node) routers (some face,.inr shared)

def installNode (node : Node) (routers : Routers Node Channel Face) : Except Stop (Routers Node Channel Face) :=
  match network.faceTable node with
  | none => .error .assertion
  | some faces =>
    if (routers (.inl node)).isSome then .ok routers
    else faces.foldlM (network.installFace installOther node) (Function.update routers (.inl node) (some []))

def installChannel (shared : Channel) (routers : Routers Node Channel Face) : Except Stop (Routers Node Channel Face) :=
  if (routers (.inr shared)).isSome then .ok routers
  else (network.devices shared).foldlM (network.incidency installOther (.inr shared) none) (Function.update routers (.inr shared) (some []))

/-- `Install` of a node and of a channel, for as many calls inside each other as given. -/
def install : (calls : Nat) → Owner Node Channel → Routers Node Channel Face → Except Stop (Routers Node Channel Face)
  | 0, _, _ => .error .calls
  | calls + 1, .inl node, routers => network.installNode (install calls) node routers
  | calls + 1, .inr shared, routers => network.installChannel (install calls) shared routers

/-! The installation is a search along the incidencies. -/

def incidencyOf (face : Option Face) (device : Device) : Option (Option Face × Owner Node Channel) :=
  (network.node device).map fun node => (face,.inl node)

def faceIncidencies (face : Face) : List (Option (Option Face × Owner Node Channel)) :=
  match network.connection face with
  | none => []
  | some (face,device,shared) =>
    if (network.devices shared).length = 2 then
      ((network.devices shared).filter fun otherSide => device ≠ otherSide).map (network.incidencyOf (some face))
    else [some (some face,.inr shared)]

def incidencies : Owner Node Channel → Option (List (Option (Option Face × Owner Node Channel)))
  | .inl node => (network.faceTable node).map fun faces => faces.flatMap network.faceIncidencies
  | .inr shared => some ((network.devices shared).map (network.incidencyOf none))

end

section
variable [DecidableEq Node] [DecidableEq Channel] {network : DeviceNetwork Node Channel Device Face}
  {installOther : Owner Node Channel → Routers Node Channel Face → Except Stop (Routers Node Channel Face)}

private theorem followTo_incidencyOf (owner : Owner Node Channel) (face : Option Face) (routers : Routers Node Channel Face) (device : Device) :
    followTo installOther owner routers (network.incidencyOf face device) = network.incidency installOther owner face routers device := by
  unfold incidencyOf incidency
  cases network.node device <;> rfl

variable [DecidableEq Device]

private theorem installFace_eq (node : Node) (routers : Routers Node Channel Face) (face : Face) :
    network.installFace installOther node routers face =
      (network.faceIncidencies face).foldlM (followTo installOther (.inl node)) routers := by
  unfold installFace faceIncidencies
  cases network.connection face with
  | none => rfl
  | some connected =>
    obtain ⟨face,device,shared⟩ := connected
    dsimp only
    split
    · rw [List.foldlM_map,List.foldlM_filter]
      congr 1
      funext routers otherSide
      rw [followTo_incidencyOf]
      by_cases same : device = otherSide <;> simp [same,pure,Except.pure]
    · rw [List.foldlM_cons]
      exact (bind_pure _).symm

private theorem install_eq_search (network : DeviceNetwork Node Channel Device Face) (calls : Nat) (owner : Owner Node Channel)
    (routers : Routers Node Channel Face) : network.install calls owner routers = search network.incidencies calls owner routers := by
  induction calls generalizing owner routers with
  | zero => rfl
  | succ calls ih =>
    have inner : network.install calls = search network.incidencies calls := by
      funext owner routers
      exact ih owner routers
    cases owner with
    | inl node =>
      rw [install,search,installNode,inner,incidencies]
      cases network.faceTable node with
      | none => rfl
      | some faces =>
        dsimp only [Option.map_some]
        split
        · rfl
        · rw [foldlM_flatMap]
          congr 1
          funext routers face
          exact installFace_eq node routers face
    | inr shared =>
      rw [install,search,installChannel,inner,incidencies]
      dsimp only
      split
      · rfl
      · rw [List.foldlM_map]
        congr 1
        funext routers device
        exact (followTo_incidencyOf (.inr shared) none routers device).symm

end

/-! What the installation is for. -/
section
variable (network : DeviceNetwork Node Channel Device Face)

/-- The router that a device leads to: that of the other end, or that of a channel of not just two devices. -/
def Towards (device : Device) (shared : Channel) (other : Owner Node Channel) : Prop :=
  if (network.devices shared).length = 2 then
    ∃ otherSide ∈ network.devices shared, otherSide ≠ device ∧ ∃ node, network.node otherSide = some node ∧ other = .inl node
  else other = .inr shared

def Complete (list : List (Option Face × Owner Node Channel)) : Owner Node Channel → Prop
  | .inl node => ∃ faces, network.faceTable node = some faces ∧ List.Forall₂ (fun connected incidency =>
      incidency.1 = some connected.1 ∧ network.Towards connected.2.1 connected.2.2 incidency.2) (faces.filterMap network.connection) list
  | .inr shared => List.Forall₂ (fun device incidency =>
      incidency.1 = none ∧ ∃ node, network.node device = some node ∧ incidency.2 = .inl node) (network.devices shared) list

def Adjacent : Owner Node Channel → Owner Node Channel → Prop
  | .inl node, other => ∃ faces face device shared, network.faceTable node = some faces ∧ face ∈ faces ∧
      network.connection face = some (face,device,shared) ∧ network.Towards device shared other
  | .inr shared, other => ∃ device ∈ network.devices shared, ∃ node, network.node device = some node ∧ other = .inl node

/-- The owners without a router that are reached over such owners. -/
def Reached (routers : Routers Node Channel Face) (start owner : Owner Node Channel) : Prop :=
  routers start = none ∧ Relation.ReflTransGen (fun first second => network.Adjacent first second ∧ routers second = none) start owner

/-- The stack or the node of a device is missing. -/
def Unready : Owner Node Channel → Prop
  | .inl node => ∀ faces, network.faceTable node = some faces → ∃ face ∈ faces, ∃ device shared,
      network.connection face = some (face,device,shared) ∧ (network.devices shared).length = 2 ∧
        ∃ otherSide ∈ network.devices shared, otherSide ≠ device ∧ network.node otherSide = none
  | .inr shared => ∃ device ∈ network.devices shared, network.node device = none

/-- What `Install` of a node does: it fails if what it reaches is not ready, and else leaves the routers there are as
they are and gives what it reaches complete ones. -/
def Installs (routers : Routers Node Channel Face) (node : Node) :
    Except Stop (Routers Node Channel Face) → Prop
  | .error .calls => False
  | .error .assertion => network.faceTable node = none ∨ ∃ owner, network.Reached routers (.inl node) owner ∧ network.Unready owner
  | .ok after => network.faceTable node ≠ none ∧ (∀ owner, network.Reached routers (.inl node) owner → ¬network.Unready owner) ∧
      (∀ owner list, routers owner = some list → after owner = some list) ∧
      (∀ owner, routers owner = none → ((after owner).isSome = true ↔ network.Reached routers (.inl node) owner)) ∧
      ∀ owner list, routers owner = none → after owner = some list → network.Complete list owner

end

section
variable {network : DeviceNetwork Node Channel Device Face}

private theorem connection_eq_some {face other : Face} {device : Device} {shared : Channel}
    (connected : network.connection face = some (other,device,shared)) : other = face ∧ network.channel device = some shared := by
  obtain ⟨found,-,rest⟩ := Option.bind_eq_some_iff.mp connected
  obtain ⟨channel,attached,same⟩ := Option.map_eq_some_iff.mp rest
  cases same
  exact ⟨rfl,attached⟩

private theorem connection_of_eq_some {face : Face} {connected : Face × Device × Channel} (found : network.connection face = some connected) :
    network.connection face = some (face,connected.2.1,connected.2.2) := by
  obtain ⟨other,device,shared⟩ := connected
  rw [found,(connection_eq_some found).1]

variable [DecidableEq Device]

private theorem faceIncidencies_of_none {face : Face} (apart : network.connection face = none) : network.faceIncidencies face = [] := by
  unfold faceIncidencies
  rw [apart]

private theorem exists_otherSide {device : Device} {shared : Channel} (attached : network.channel device = some shared)
    (two : (network.devices shared).length = 2) : ∃ otherSide ∈ network.devices shared, otherSide ≠ device ∧
      (∀ other ∈ network.devices shared, other ≠ device → other = otherSide) ∧
      (network.devices shared).filter (fun otherSide => device ≠ otherSide) = [otherSide] := by
  have inside := network.attached device shared attached
  have distinct := network.distinct shared
  obtain ⟨first,second,both⟩ := List.length_eq_two.mp two
  rw [both] at inside distinct ⊢
  have apart : first ≠ second := by
    rintro rfl
    simp at distinct
  simp only [List.mem_cons,List.not_mem_nil,or_false] at inside
  rcases inside with rfl | rfl
  · exact ⟨second,by simp,apart.symm,by simp,by simp [apart]⟩
  · exact ⟨first,by simp,apart,by simp,by simp [apart.symm]⟩

private theorem faceIncidencies_eq {face : Face} {device : Device} {shared : Channel} (connected : network.connection face = some (face,device,shared)) :
    ∃ incidency?, network.faceIncidencies face = [incidency?] ∧
      (∀ incidency, incidency? = some incidency ↔ incidency.1 = some face ∧ network.Towards device shared incidency.2) ∧
      (incidency? = none ↔ (network.devices shared).length = 2 ∧
        ∃ otherSide ∈ network.devices shared, otherSide ≠ device ∧ network.node otherSide = none) := by
  obtain ⟨-,attached⟩ := connection_eq_some connected
  unfold faceIncidencies Towards
  rw [connected]
  dsimp only
  by_cases two : (network.devices shared).length = 2
  · obtain ⟨otherSide,inside,apart,only,filtered⟩ := exists_otherSide attached two
    simp only [if_pos two]
    rw [filtered]
    refine ⟨network.incidencyOf (some face) otherSide,rfl,?_,?_⟩
    · intro incidency
      unfold incidencyOf
      apply Iff.intro
      · intro made
        obtain ⟨node,there,rfl⟩ := Option.map_eq_some_iff.mp made
        exact ⟨rfl,otherSide,inside,apart,node,there,rfl⟩
      · rintro ⟨label,other,among,differs,node,there,towards⟩
        rw [only other among differs] at there
        rw [there,Option.map_some,← label,← towards]
    · unfold incidencyOf
      rw [Option.map_eq_none_iff]
      apply Iff.intro
      · exact fun missing => ⟨two,otherSide,inside,apart,missing⟩
      · rintro ⟨-,other,among,differs,missing⟩
        rwa [only other among differs] at missing
  · simp only [if_neg two]
    refine ⟨_,rfl,?_,?_⟩
    · rintro ⟨label,other⟩
      simp [Prod.ext_iff,eq_comm]
    · simp [two]

private theorem adjacent_iff (first second : Owner Node Channel) :
    (∃ list label, network.incidencies first = some list ∧ some (label,second) ∈ list) ↔ network.Adjacent first second := by
  cases first with
  | inl node =>
    unfold incidencies Adjacent
    apply Iff.intro
    · rintro ⟨list,label,out,inside⟩
      obtain ⟨faces,known,rfl⟩ := Option.map_eq_some_iff.mp out
      obtain ⟨face,among,inside⟩ := List.mem_flatMap.mp inside
      cases connected : network.connection face with
      | none =>
        rw [faceIncidencies_of_none connected] at inside
        cases inside
      | some found =>
        have connected := connection_of_eq_some connected
        obtain ⟨incidency?,one,towards,-⟩ := faceIncidencies_eq connected
        rw [one,List.mem_singleton] at inside
        exact ⟨faces,face,found.2.1,found.2.2,known,among,connected,((towards _).mp inside.symm).2⟩
    · rintro ⟨faces,face,device,shared,known,among,connected,towards⟩
      obtain ⟨incidency?,one,made,-⟩ := faceIncidencies_eq connected
      refine ⟨_,some face,congrArg (Option.map _) known,List.mem_flatMap.mpr ⟨face,among,?_⟩⟩
      rw [one,List.mem_singleton]
      exact ((made (some face,second)).mpr ⟨rfl,towards⟩).symm
  | inr shared =>
    unfold incidencies Adjacent
    apply Iff.intro
    · rintro ⟨list,label,out,inside⟩
      cases out
      obtain ⟨device,among,made⟩ := List.mem_map.mp inside
      obtain ⟨node,there,same⟩ := Option.map_eq_some_iff.mp made
      cases same
      exact ⟨device,among,node,there,rfl⟩
    · rintro ⟨device,among,node,there,rfl⟩
      refine ⟨_,none,rfl,List.mem_map.mpr ⟨device,among,?_⟩⟩
      rw [incidencyOf,there]
      rfl

theorem found_iff (routers : Routers Node Channel Face) (start owner : Owner Node Channel) :
    Found network.incidencies routers start owner ↔ network.Reached routers start owner := by
  have same : Discovers network.incidencies routers = fun first second => network.Adjacent first second ∧ routers second = none := by
    funext first second
    exact propext (and_congr_left fun _ => adjacent_iff first second)
  unfold Found Reached
  rw [same]

private theorem fails_iff (owner : Owner Node Channel) : Fails network.incidencies owner ↔ network.Unready owner := by
  have missing : ∀ items, network.incidencies owner = some items → (Fails network.incidencies owner ↔ none ∈ items) := by
    intro items out
    rw [Fails,out,← not_not (a := none ∈ items),← exists_map_some,not_exists]
    simp only [ne_eq,Option.some.injEq]
  cases owner with
  | inl node =>
    unfold Unready
    dsimp only
    cases known : network.faceTable node with
    | none =>
      apply iff_of_true
      · intro list out
        rw [incidencies,known] at out
        cases out
      · intro faces out
        cases out
    | some faces =>
      rw [missing (faces.flatMap network.faceIncidencies) (by rw [incidencies,known]; rfl),List.mem_flatMap]
      simp only [Option.some.injEq,forall_eq']
      apply exists_congr
      intro face
      apply and_congr_right
      intro _
      cases connected : network.connection face with
      | none => simp [faceIncidencies_of_none connected]
      | some found =>
        obtain ⟨incidency?,one,-,none⟩ := faceIncidencies_eq (connection_of_eq_some connected)
        rw [one,List.mem_singleton,eq_comm,none]
        obtain ⟨other,device,shared⟩ := found
        obtain rfl := (connection_eq_some connected).1
        simp
  | inr shared =>
    rw [missing _ rfl]
    simp [Unready,incidencyOf]

private theorem complete_of_incidencies {owner : Owner Node Channel} {list : List (Option Face × Owner Node Channel)}
    (all : network.incidencies owner = some (list.map some)) : network.Complete list owner := by
  cases owner with
  | inl node =>
    obtain ⟨faces,known,whole⟩ := Option.map_eq_some_iff.mp all
    refine ⟨faces,known,?_⟩
    clear known all
    induction faces generalizing list with
    | nil =>
      rw [List.flatMap_nil] at whole
      rw [List.map_eq_nil_iff.mp whole.symm]
      exact .nil
    | cons face faces ih =>
      rw [List.flatMap_cons] at whole
      cases connected : network.connection face with
      | none =>
        rw [faceIncidencies_of_none connected] at whole
        rw [List.filterMap_cons_none connected]
        exact ih whole
      | some found =>
        have connected' := connection_of_eq_some connected
        obtain ⟨incidency?,one,towards,-⟩ := faceIncidencies_eq connected'
        rw [one] at whole
        cases list with
        | nil => cases whole
        | cons incidency list =>
          obtain ⟨first,rest⟩ := List.cons.inj whole
          rw [List.filterMap_cons_some connected']
          exact .cons ((towards incidency).mp first) (ih rest)
  | inr shared =>
    have whole : (network.devices shared).map (network.incidencyOf none) = list.map some := Option.some.inj all
    apply (forall₂_of_map_eq whole).imp
    intro device incidency made
    obtain ⟨node,there,rfl⟩ := Option.map_eq_some_iff.mp made
    exact ⟨rfl,node,there,rfl⟩

variable [DecidableEq Node] [DecidableEq Channel]

/-- `Install` ends, on every network and whatever routers there are. -/
theorem install_installs [Fintype Node] [Fintype Channel] (network : DeviceNetwork Node Channel Device Face) (node : Node)
    (routers : Routers Node Channel Face) (more : Nat) :
    network.Installs routers node (network.install (unmarkedCount routers + 1 + more) (.inl node) routers) := by
  have enough : unmarkedCount routers < unmarkedCount routers + 1 + more := by omega
  have judged : Judged network.incidencies routers (.inl node) _ := search_judged network.incidencies enough
  have stackless : network.incidencies (.inl node) = none ↔ network.faceTable node = none := Option.map_eq_none_iff
  rw [install_eq_search]
  cases result : search network.incidencies (unmarkedCount routers + 1 + more) (.inl node) routers with
  | error stop =>
    rw [result] at judged
    cases stop with
    | calls => exact judged
    | assertion =>
      rcases judged with nothing | ⟨owner,found,fails⟩
      · exact Or.inl (stackless.mp nothing)
      · exact Or.inr ⟨owner,(found_iff routers _ owner).mp found,(fails_iff owner).mp fails⟩
  | ok after =>
    rw [result] at judged
    obtain ⟨stack,searched⟩ := judged
    refine ⟨mt stackless.mpr stack,?_,searched.kept,?_,?_⟩
    · intro owner reached unready
      obtain ⟨unmarked,marked⟩ := searched.of_found ((found_iff routers _ owner).mpr reached)
      obtain ⟨list,there⟩ := Option.isSome_iff_exists.mp marked
      exact (fails_iff owner).mpr unready list (searched.written owner list unmarked there).1
    · intro owner unmarked
      rw [← found_iff,searched.found_iff]
      exact (and_iff_right unmarked).symm
    · intro owner list unmarked there
      exact complete_of_incidencies (searched.written owner list unmarked there).1

def chain : DeviceNetwork (Fin 3) (Fin 2) (Fin 4) (Fin 4) where
  faceTable node := some (match node with | 0 => [0] | 1 => [1,2] | 2 => [3])
  netDevice face := some face
  channel device := some (match device with | 0 => 0 | 1 => 0 | 2 => 1 | 3 => 1)
  devices shared := match shared with | 0 => [0,1] | 1 => [2,3]
  node device := some (match device with | 0 => 0 | 1 => 1 | 2 => 1 | 3 => 2)
  attached := by
    simp only [Option.some.injEq,forall_eq']
    decide
  distinct := by decide

/-- A router on the middle node keeps the installation from the last one. -/
theorem install_stops : ∃ after, chain.install 9 (.inl 0) (fun owner => if owner = .inl 1 then some [] else none) = .ok after ∧
    after (.inl 2) = none ∧ Relation.ReflTransGen chain.Adjacent (.inl 0) (.inl 2) := by
  have first : chain.Adjacent (.inl 0) (.inl 1) := ⟨[0],0,0,0,rfl,by simp,rfl,1,by simp [chain],by decide,1,rfl,rfl⟩
  have second : chain.Adjacent (.inl 1) (.inl 2) := ⟨[1,2],2,2,1,rfl,by simp,rfl,3,by simp [chain],by decide,2,rfl,rfl⟩
  exact ⟨_,rfl,rfl,.tail (.single first) second⟩

end

end DeviceNetwork

end Ncfcc.Helper
