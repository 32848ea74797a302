import Mathlib.Data.List.TakeWhile
import Ncfcc.NdnCxx.Component
import Ncfcc.NdnCxx.StringHelper

/-! Names as URIs. A component of periods only is written with three more of them, an implicit
digest in hexadecimal, and other octets than the unreserved ones are escaped. -/
namespace Ncfcc.NdnCxx

def sha256DigestUriPrefix : Text := ascii "sha256digest="

/-- 0-9, A-Z, a-z, (+), (-), (.), (_) -/
def isUnreserved (x : UInt8) : Bool :=
  (0x30 ≤ x && x ≤ 0x39) || (0x41 ≤ x && x ≤ 0x5a) || (0x61 ≤ x && x ≤ 0x7a) ||
    x == 0x2b || x == 0x2d || x == 0x2e || x == 0x5f

def escapeOctet (x : UInt8) : Text := if isUnreserved x then [x] else percent :: hexOctet true x

namespace Component

def toUri (component : Component) : Text :=
  if component.type = Tlv.ImplicitSha256DigestComponent then sha256DigestUriPrefix ++ printHex false component.value
  else if component.value.all (· == period) then [period,period,period] ++ component.value
  else component.value.flatMap escapeOctet

def fromEscapedString (hexDecoder : Text → List UInt8) (escapedString : Text) : Except String Component :=
  let trimmedString := trim escapedString
  if sha256DigestUriPrefix.isPrefixOf trimmedString then
    if trimmedString.length ≠ sha256DigestUriPrefix.length + 32 * 2 then
      .error "Cannot convert to ImplicitSha256DigestComponent(expected sha256 in hex encoding)"
    else match fromHex hexDecoder (trimmedString.drop sha256DigestUriPrefix.length) with
      | .error _ => .error "Cannot convert to a ImplicitSha256DigestComponent (invalid hex encoding)"
      | .ok digest => fromImplicitSha256Digest digest
  else
    let value := unescape trimmedString
    if value.all (· == period) then
      if value.length ≤ 2 then .error "Illegal URI (name component cannot be . or ..)"
      else .ok (generic (value.drop 3))
    else .ok (generic value)

end Component

abbrev Name := List Component

namespace Name

def toUri (name : Name) : Text :=
  if name.isEmpty then [slash] else name.flatMap fun component => slash :: component.toUri

/-- A leading protocol such as `ndn:` ends before the first slash. -/
def omitProtocol (uri : Text) : Text :=
  match uri.findIdx? (· == colon) with
  | none => uri
  | some iColon =>
    if (uri.findIdx? (· == slash)).all (iColon < ·) then trim (uri.drop (iColon + 1)) else uri

/-- The leading slash and possibly the authority trimmed; none if there was only an authority. -/
def omitAuthority (uri : Text) : Option Text :=
  if uri.head? = some slash then
    if uri[1]? = some slash then
      match (uri.drop 2).findIdx? (· == slash) with
      | none => none
      | some iAfterAuthority => some (trim (uri.drop (2 + iAfterAuthority + 1)))
    else some (trim (uri.drop 1))
  else some uri

/-- What the loop over the slashes unescapes; nothing behind a slash at the end. -/
def pieces (uri : Text) : List Text :=
  let parts := uri.splitOn slash
  if parts.getLast? = some [] then parts.dropLast else parts

/-- `construct`, on what its C string has before the terminating zero. -/
def construct (hexDecoder : Text → List UInt8) (uriOrig : Text) : Except String Name :=
  let uri := trim (uriOrig.takeWhile (· != 0))
  if uri.isEmpty then .ok []
  else match omitAuthority (omitProtocol uri) with
    | none => .ok []
    | some uri => (pieces uri).mapM (Component.fromEscapedString hexDecoder)

end Name

/-! The way back. -/

def isUriOctet (c : UInt8) : Bool := isUnreserved c || c == percent || c == 0x3d

/-- Such octets are not trimmed, separate nothing and end nothing. -/
structure Plain (c : UInt8) : Prop where
  space : isSpace c = false
  slash : c ≠ slash
  colon : c ≠ colon
  zero : c ≠ 0

private theorem plain_of_isUriOctet {c : UInt8} (written : isUriOctet c = true) : Plain c := by
  have every : ∀ n < 256, isUriOctet (UInt8.ofNat n) = true → isSpace (UInt8.ofNat n) = false ∧
      UInt8.ofNat n ≠ slash ∧ UInt8.ofNat n ≠ colon ∧ UInt8.ofNat n ≠ 0 := by
    decide +kernel
  rw [← UInt8.ofNat_toNat (x := c)] at written
  obtain ⟨space,noSlash,noColon,noZero⟩ := every _ c.toNat_lt written
  rw [UInt8.ofNat_toNat] at space noSlash noColon noZero
  exact ⟨space,noSlash,noColon,noZero⟩

private theorem isUnreserved_hexOctet (isUpperCase : Bool) (octet : UInt8) :
    ∀ c ∈ hexOctet isUpperCase octet, isUnreserved c = true := by
  have every : ∀ upper : Bool, ∀ digit < 16, isUnreserved (hexDigit upper digit) = true := by decide
  have bound := octet.toNat_lt
  intro c inside
  rcases List.mem_pair.mp inside with rfl | rfl
  · exact every isUpperCase _ (by omega)
  · exact every isUpperCase _ (by omega)

private theorem escapeOctet_written (x c : UInt8) (inside : c ∈ escapeOctet x) : isUnreserved c = true ∨ c = percent := by
  unfold escapeOctet at inside
  split at inside
  · rename_i unreserved
    rw [List.mem_singleton.mp inside]
    exact Or.inl unreserved
  · rcases List.mem_cons.mp inside with rfl | digit
    · exact Or.inr rfl
    · exact Or.inl (isUnreserved_hexOctet true x c digit)

private theorem escape_written {value : List UInt8} {c : UInt8} (inside : c ∈ value.flatMap escapeOctet) :
    isUnreserved c = true ∨ c = percent := by
  obtain ⟨x,-,here⟩ := List.mem_flatMap.mp inside
  exact escapeOctet_written x c here

private theorem unescape_escapeOctet (x : UInt8) (rest : Text) : unescape (escapeOctet x ++ rest) = x :: unescape rest := by
  unfold escapeOctet
  split
  · rename_i unreserved
    refine unescape_cons ?_ rest
    rintro rfl
    exact absurd unreserved (by decide)
  · exact unescape_hexOctet x rest

private theorem unescape_escape (value : List UInt8) : unescape (value.flatMap escapeOctet) = value := by
  induction value with
  | nil => rfl
  | cons x value ih => rw [List.flatMap_cons,unescape_escapeOctet,ih]

private theorem eq_replicate_of_periods {value : List UInt8} (periods : value.all (· == period) = true) :
    value = List.replicate value.length period :=
  List.eq_replicate_iff.mpr ⟨rfl,fun c inside => by simpa using List.all_eq_true.mp periods c inside⟩

private theorem unescape_periods (count : Nat) : unescape (List.replicate count period) = List.replicate count period := by
  induction count with
  | zero => rfl
  | succ count ih => rw [List.replicate_succ,unescape_cons (by decide),ih]

namespace Component

private theorem toUri_written {component : Component} {c : UInt8} (inside : c ∈ component.toUri) : isUriOctet c = true := by
  have unreserved : isUnreserved c = true → isUriOctet c = true := fun holds => by simp [isUriOctet,holds]
  unfold toUri at inside
  split at inside
  · rcases List.mem_append.mp inside with start | digits
    · have every : sha256DigestUriPrefix.all isUriOctet = true := by decide
      exact List.all_eq_true.mp every c start
    · obtain ⟨octet,-,here⟩ := List.mem_flatMap.mp digits
      exact unreserved (isUnreserved_hexOctet false octet c here)
  · split at inside
    · rename_i periods
      refine unreserved ?_
      have dot : c = period := by
        rcases List.mem_append.mp inside with start | dots
        · simpa using start
        · simpa using List.all_eq_true.mp periods c dots
      rw [dot]
      decide
    · rcases escape_written inside with holds | rfl
      · exact unreserved holds
      · decide

private theorem toUri_ne_nil (component : Component) : component.toUri ≠ [] := by
  unfold toUri
  split
  · exact List.append_ne_nil_of_left_ne_nil (by decide) _
  · split
    · exact List.append_ne_nil_of_left_ne_nil (by decide) _
    · rename_i others
      intro none
      have empty := unescape_escape component.value
      rw [none] at empty
      rw [← empty] at others
      exact others rfl

private theorem trim_toUri (component : Component) : trim component.toUri = component.toUri :=
  trim_of_plain fun _ inside => (plain_of_isUriOctet (toUri_written inside)).space

private theorem fromEscapedString_toUri {hexDecoder : Text → List UInt8} (component : Component)
    (decodes : hexDecoder (printHex false component.value) = component.value) :
    fromEscapedString hexDecoder component.toUri = .ok component := by
  unfold fromEscapedString
  rw [trim_toUri]
  obtain ⟨type,value,formed⟩ := component
  by_cases digest : type = Tlv.ImplicitSha256DigestComponent
  · have size : value.length = 32 := by
      rcases formed with generic | ⟨-,size⟩
      · rw [generic] at digest
        exact absurd digest (by decide)
      · exact size
    have uri : toUri ⟨type,value,formed⟩ = sha256DigestUriPrefix ++ printHex false value := if_pos digest
    simp only [uri]
    rw [if_pos (List.isPrefixOf_iff_prefix.mpr (List.prefix_append _ _)),if_neg,List.drop_left,
      fromHex_printHex decodes]
    · simp [fromImplicitSha256Digest,size,digest]
    · rw [List.length_append,printHex_length,size]
      simp
  · obtain rfl : type = Tlv.NameComponent := formed.resolve_right fun also => digest also.1
    by_cases periods : value.all (· == period) = true
    · have uri : toUri ⟨Tlv.NameComponent,value,formed⟩ = List.replicate (value.length + 3) period := by
        refine (if_neg digest).trans ((if_pos periods).trans ?_)
        calc List.replicate 3 period ++ value
            = List.replicate 3 period ++ List.replicate value.length period :=
              congrArg _ (eq_replicate_of_periods periods)
          _ = List.replicate (value.length + 3) period := by rw [List.replicate_append_replicate,Nat.add_comm]
      simp only [uri]
      rw [if_neg,unescape_periods,if_pos (by simp),if_neg (by simp),List.drop_replicate,Nat.add_sub_cancel,
        ← eq_replicate_of_periods periods]
      · rfl
      · rw [List.replicate_succ]
        exact Bool.false_ne_true
    · have uri : toUri ⟨Tlv.NameComponent,value,formed⟩ = value.flatMap escapeOctet :=
        (if_neg digest).trans (if_neg periods)
      simp only [uri]
      rw [if_neg,unescape_escape,if_neg periods]
      · rfl
      · intro started
        have inside := (List.isPrefixOf_iff_prefix.mp started).subset (show 0x3d ∈ sha256DigestUriPrefix by decide)
        exact absurd (escape_written inside) (by decide)

end Component

namespace Name

private theorem splitOn_pieces {first : Text} {others : List Text} (plain : ∀ text ∈ first :: others, slash ∉ text) :
    (first ++ others.flatMap (slash :: ·)).splitOn slash = first :: others := by
  induction others generalizing first with
  | nil =>
    rw [List.flatMap_nil,List.append_nil]
    exact List.splitOn_eq_singleton (plain first List.mem_cons_self)
  | cons second others ih =>
    obtain ⟨here,later⟩ := List.forall_mem_cons.mp plain
    rw [List.flatMap_cons,List.cons_append,List.splitOn_append_cons_self_of_not_mem here]
    exact congrArg (first :: ·) (ih later)

private theorem pieces_joined {first : Text} {others : List Text} (plain : ∀ text ∈ first :: others, slash ∉ text)
    (nonempty : ∀ text ∈ first :: others, text ≠ []) :
    pieces (first ++ others.flatMap (slash :: ·)) = first :: others := by
  unfold pieces
  rw [splitOn_pieces plain]
  exact if_neg fun last => nonempty [] (List.mem_of_getLast? last) rfl

def body : Name → Text
  | [] => []
  | first :: others => first.toUri ++ (others.map Component.toUri).flatMap (slash :: ·)

private theorem toUri_eq (name : Name) : name.toUri = slash :: name.body := by
  cases name with
  | nil => rfl
  | cons first others =>
    change (first :: others).flatMap (fun component => slash :: component.toUri) = _
    rw [body,List.flatMap_cons,List.flatMap_map]
    rfl

private theorem body_written {name : Name} {c : UInt8} (inside : c ∈ name.body) : isUriOctet c = true ∨ c = slash := by
  cases name with
  | nil => exact absurd inside List.not_mem_nil
  | cons first others =>
    rcases List.mem_append.mp inside with here | later
    · exact Or.inl (Component.toUri_written here)
    · obtain ⟨text,written,here⟩ := List.mem_flatMap.mp later
      obtain ⟨component,-,rfl⟩ := List.mem_map.mp written
      rcases List.mem_cons.mp here with rfl | here
      · exact Or.inr rfl
      · exact Or.inl (Component.toUri_written here)

private theorem space_of_body {name : Name} {c : UInt8} (inside : c ∈ name.body) : isSpace c = false ∧ c ≠ 0 := by
  rcases body_written inside with written | rfl
  · exact ⟨(plain_of_isUriOctet written).space,(plain_of_isUriOctet written).zero⟩
  · decide

private theorem head_body (name : Name) : name.body.head? ≠ some slash := by
  cases name with
  | nil => exact (nomatch ·)
  | cons first others =>
    intro starts
    rw [body,List.head?_append_of_ne_nil _ first.toUri_ne_nil] at starts
    exact (plain_of_isUriOctet (Component.toUri_written (List.mem_of_mem_head? starts))).slash rfl

private theorem pieces_body (name : Name) : pieces name.body = name.map Component.toUri := by
  cases name with
  | nil => rfl
  | cons first others =>
    rw [body,List.map_cons]
    refine pieces_joined ?_ ?_ <;> rw [← @List.map_cons _ _ Component.toUri]
    · intro text written inside
      obtain ⟨component,-,rfl⟩ := List.mem_map.mp written
      exact (plain_of_isUriOctet (Component.toUri_written inside)).slash rfl
    · intro text written
      obtain ⟨component,-,rfl⟩ := List.mem_map.mp written
      exact component.toUri_ne_nil

private theorem mapM_toUri {hexDecoder : Text → List UInt8} (name : Name)
    (decodes : ∀ component ∈ name, hexDecoder (printHex false component.value) = component.value) :
    (name.map Component.toUri).mapM (Component.fromEscapedString hexDecoder) = .ok name := by
  induction name with
  | nil => rfl
  | cons first others ih =>
    obtain ⟨here,later⟩ := List.forall_mem_cons.mp decodes
    rw [List.map_cons,List.mapM_cons,Component.fromEscapedString_toUri first here,ih later]
    rfl

theorem findIdx?_separator {separator : UInt8} {front : Text} (clear : separator ∉ front) (rest : Text) :
    (front ++ separator :: rest).findIdx? (· == separator) = some front.length := by
  have none : front.findIdx? (· == separator) = none := by
    rw [List.findIdx?_eq_none_iff]
    intro c inside
    exact beq_false_of_ne fun same => clear (same ▸ inside)
  rw [List.findIdx?_append,none,List.findIdx?_cons,beq_self_eq_true]
  simp

private theorem omitProtocol_of_slash (rest : Text) : omitProtocol (slash :: rest) = slash :: rest := by
  have first : (slash :: rest).findIdx? (· == slash) = some 0 := findIdx?_separator List.not_mem_nil rest
  unfold omitProtocol
  split
  · rfl
  · simp only [first,Option.all_some,Nat.not_lt_zero,decide_false,Bool.false_eq_true,if_false]

private theorem omitProtocol_protocol {protocol : Text} (noColon : colon ∉ protocol) (noSlash : slash ∉ protocol) (rest : Text) :
    omitProtocol (protocol ++ colon :: slash :: rest) = trim (slash :: rest) := by
  have atSlash : (protocol ++ colon :: slash :: rest).findIdx? (· == slash) = some (protocol.length + 1) := by
    have clear : slash ∉ protocol ++ [colon] := by
      rw [List.mem_append,List.mem_singleton,not_or]
      exact ⟨noSlash,by decide⟩
    have found := findIdx?_separator clear rest
    rwa [List.append_assoc,List.length_append] at found
  unfold omitProtocol
  simp only [findIdx?_separator noColon,atSlash,Option.all_some,Nat.lt_add_one,decide_true,if_true]
  rw [← List.drop_drop,List.drop_left]
  rfl

private theorem omitAuthority_none {rest : Text} (other : rest.head? ≠ some slash) :
    omitAuthority (slash :: rest) = some (trim rest) := by
  have second : (slash :: rest)[1]? ≠ some slash := by
    rwa [List.getElem?_cons_succ,← List.head?_eq_getElem?]
  unfold omitAuthority
  rw [if_pos List.head?_cons,if_neg second]
  rfl

private theorem omitAuthority_authority {authority : Text} (clear : slash ∉ authority) (rest : Text) :
    omitAuthority (slash :: slash :: (authority ++ slash :: rest)) = some (trim rest) := by
  unfold omitAuthority
  rw [if_pos List.head?_cons,if_pos (by rfl)]
  change (match (authority ++ slash :: rest).findIdx? (· == slash) with
    | none => none
    | some iAfterAuthority => _) = _
  simp only [findIdx?_separator clear]
  have rest_of : (slash :: slash :: (authority ++ slash :: rest)).drop (2 + authority.length + 1) = rest := by
    rw [← List.drop_drop,← List.drop_drop]
    change ((authority ++ slash :: rest).drop authority.length).drop 1 = rest
    rw [List.drop_left]
    rfl
  rw [rest_of]

def path (authority : Option Text) (name : Name) : Text :=
  match authority with
  | none => name.toUri
  | some authority => slash :: slash :: (authority ++ name.toUri)

def reference (protocol authority : Option Text) (name : Name) : Text :=
  match protocol with
  | none => name.path authority
  | some protocol => protocol ++ colon :: name.path authority

structure Readable (protocol authority : Option Text) : Prop where
  protocol : ∀ text ∈ protocol, ∀ c ∈ text, isSpace c = false ∧ c ≠ slash ∧ c ≠ colon ∧ c ≠ 0
  authority : ∀ text ∈ authority, ∀ c ∈ text, c ≠ slash ∧ c ≠ 0

private theorem path_eq (authority : Option Text) (name : Name) : ∃ rest, name.path authority = slash :: rest := by
  cases authority with
  | none => exact ⟨_,toUri_eq name⟩
  | some authority => exact ⟨_,rfl⟩

private theorem getLast_toUri (name : Name) : ∀ c ∈ name.toUri.getLast?, isSpace c = false := by
  rw [toUri_eq]
  intro c last
  rcases List.mem_cons.mp (List.mem_of_mem_getLast? last) with rfl | inside
  · decide
  · exact (space_of_body inside).1

private theorem getLast_append {first second : Text} (nonempty : second ≠ []) (ends : ∀ c ∈ second.getLast?, isSpace c = false) :
    ∀ c ∈ (first ++ second).getLast?, isSpace c = false := by
  rwa [List.getLast?_append_of_ne_nil first nonempty]

private theorem getLast_path (authority : Option Text) (name : Name) : ∀ c ∈ (name.path authority).getLast?, isSpace c = false := by
  cases authority with
  | none => exact getLast_toUri name
  | some authority =>
    have nonempty : name.toUri ≠ [] := by
      rw [toUri_eq]
      exact List.cons_ne_nil _ _
    exact @getLast_append (slash :: slash :: authority) _ nonempty (getLast_toUri name)

private theorem trim_path (authority : Option Text) (name : Name) : trim (name.path authority) = name.path authority := by
  obtain ⟨rest,shape⟩ := path_eq authority name
  have ends := getLast_path authority name
  rw [shape] at ends ⊢
  have none : ∀ c ∈ ([] : Text), isSpace c = true := fun _ inside => absurd inside List.not_mem_nil
  have padded := trim_padded none none (List.cons_ne_nil slash rest) (fun c first => by cases first; decide) ends
  rwa [List.append_nil] at padded

private theorem omitProtocol_reference {protocol authority : Option Text} (name : Name) (readable : Readable protocol authority) :
    omitProtocol (name.reference protocol authority) = name.path authority := by
  have trimmed := trim_path authority name
  obtain ⟨rest,shape⟩ := path_eq authority name
  unfold reference
  rw [shape] at trimmed ⊢
  cases protocol with
  | none => exact omitProtocol_of_slash rest
  | some protocol =>
    have letters := readable.protocol protocol rfl
    have noColon : colon ∉ protocol := fun inside => (letters _ inside).2.2.1 rfl
    have noSlash : slash ∉ protocol := fun inside => (letters _ inside).2.1 rfl
    exact (omitProtocol_protocol noColon noSlash rest).trans trimmed

private theorem omitAuthority_path {protocol authority : Option Text} (name : Name) (readable : Readable protocol authority) :
    omitAuthority (name.path authority) = some name.body := by
  have trimmed : trim name.body = name.body := trim_of_plain fun c inside => (space_of_body inside).1
  unfold path
  rw [toUri_eq]
  cases authority with
  | none => exact (omitAuthority_none (head_body name)).trans (congrArg some trimmed)
  | some authority =>
    have clear : slash ∉ authority := fun inside => (readable.authority authority rfl _ inside).1 rfl
    exact (omitAuthority_authority clear name.body).trans (congrArg some trimmed)

private theorem zero_of_reference {protocol authority : Option Text} {name : Name} (readable : Readable protocol authority)
    {c : UInt8} (inside : c ∈ name.reference protocol authority) : c ≠ 0 := by
  have uri : ∀ c ∈ name.toUri, c ≠ 0 := by
    rw [toUri_eq]
    intro c inside
    rcases List.mem_cons.mp inside with rfl | inside
    · decide
    · exact (space_of_body inside).2
  have path : ∀ c ∈ name.path authority, c ≠ 0 := by
    cases authority with
    | none => exact uri
    | some authority =>
      intro c inside
      rcases List.mem_append.mp (show c ∈ (slash :: slash :: authority) ++ name.toUri from inside) with here | later
      · rcases List.mem_cons.mp here with rfl | here
        · decide
        · rcases List.mem_cons.mp here with rfl | here
          · decide
          · exact (readable.authority authority rfl c here).2
      · exact uri c later
  cases protocol with
  | none => exact path c inside
  | some protocol =>
    rcases List.mem_append.mp inside with here | later
    · exact (readable.protocol protocol rfl c here).2.2.2
    · rcases List.mem_cons.mp later with rfl | later
      · decide
      · exact path c later

private theorem head_reference {protocol authority : Option Text} {name : Name} (readable : Readable protocol authority) :
    ∀ c ∈ (name.reference protocol authority).head?, isSpace c = false := by
  obtain ⟨rest,shape⟩ := path_eq authority name
  intro c first
  cases protocol with
  | none =>
    change c ∈ (name.path authority).head? at first
    rw [shape] at first
    cases first
    decide
  | some protocol =>
    cases protocol with
    | nil =>
      cases first
      decide
    | cons letter others =>
      cases first
      exact (readable.protocol _ rfl _ List.mem_cons_self).1

private theorem getLast_reference (protocol authority : Option Text) (name : Name) :
    name.reference protocol authority ≠ [] ∧ ∀ c ∈ (name.reference protocol authority).getLast?, isSpace c = false := by
  obtain ⟨rest,shape⟩ := path_eq authority name
  have nonempty : name.path authority ≠ [] := shape ▸ List.cons_ne_nil _ _
  have ends := getLast_path authority name
  cases protocol with
  | none => exact ⟨nonempty,ends⟩
  | some protocol =>
    have whole : name.reference (some protocol) authority = (protocol ++ [colon]) ++ name.path authority := by
      rw [List.append_assoc]
      rfl
    rw [whole]
    exact ⟨List.append_ne_nil_of_right_ne_nil _ nonempty,getLast_append nonempty ends⟩

/-- The URI of a name, whatever protocol, authority and white space it stands with, is read as the name. -/
theorem construct_reference {hexDecoder : Text → List UInt8} {protocol authority : Option Text} (name : Name)
    (readable : Readable protocol authority) {front back : Text} (before : ∀ c ∈ front, isSpace c = true)
    (after : ∀ c ∈ back, isSpace c = true)
    (decodes : ∀ component ∈ name, hexDecoder (printHex false component.value) = component.value) :
    construct hexDecoder (front ++ (name.reference protocol authority ++ back)) = .ok name := by
  have space : ∀ {c : UInt8}, isSpace c = true → c ≠ 0 := by
    rintro c white rfl
    exact absurd white (by decide)
  have whole : (front ++ (name.reference protocol authority ++ back)).takeWhile (· != 0) =
      front ++ (name.reference protocol authority ++ back) := by
    refine List.takeWhile_eq_self_iff.mpr fun c inside => bne_iff_ne.mpr ?_
    rcases List.mem_append.mp inside with inside | inside
    · exact space (before c inside)
    · rcases List.mem_append.mp inside with inside | inside
      · exact zero_of_reference readable inside
      · exact space (after c inside)
  obtain ⟨nonempty,ends⟩ := getLast_reference protocol authority name
  unfold construct
  rw [whole,trim_padded before after nonempty (head_reference readable) ends]
  simp only [List.isEmpty_iff,nonempty,if_false]
  rw [omitProtocol_reference name readable,omitAuthority_path name readable]
  change (pieces name.body).mapM _ = _
  rw [pieces_body]
  exact mapM_toUri name decodes

/-- The octets that pairs of hexadecimal digits stand for, other characters ignored. -/
def hexDecode (text : Text) : List UInt8 := pair (text.filterMap fromHexChar)
where
  pair : List Nat → List UInt8
    | high :: low :: rest => UInt8.ofNat (high * 16 + low) :: pair rest
    | _ => []

/-- `" ndn://host/a%20b/...\t"` -/
theorem construct_reference_ndn :
    construct hexDecode (ascii " ndn://host/a%20b/...\t") = .ok [.generic (ascii "a b"),.generic []] := by
  have letters : (ascii "ndn").all (fun c => !isSpace c && c != slash && c != colon && c != 0) = true := by decide
  have host : (ascii "host").all (fun c => c != slash && c != 0) = true := by decide
  have readable : Readable (some (ascii "ndn")) (some (ascii "host")) := by
    refine ⟨?_,?_⟩
    · intro text given c inside
      cases given
      simpa [and_assoc] using List.all_eq_true.mp letters c inside
    · intro text given c inside
      cases given
      simpa using List.all_eq_true.mp host c inside
  have front : (ascii " ").all isSpace = true := by decide
  have back : (ascii "\t").all isSpace = true := by decide
  refine construct_reference [.generic (ascii "a b"),.generic []] readable (List.all_eq_true.mp front)
    (List.all_eq_true.mp back) ?_
  simp only [List.forall_mem_cons,List.not_mem_nil,false_imp_iff,implies_true,and_true]
  decide

end Name

end Ncfcc.NdnCxx
