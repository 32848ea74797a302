import Mathlib.Data.List.Nodup
import Ncfcc.Utils.Topology.AnnotatedTopologyReader

/-! Reading what was saved. Links and their attributes come back as they were; system ids are
not saved, and a name that starts as comments do is taken for one. -/
namespace Ncfcc.Utils.AnnotatedTopologyReader
open Ncfcc.Library

def Link.OfColumns (link : Link) : Prop := ∃ columns, (∀ word ∈ columns, IsWord word) ∧ link = linkOf columns

/-- The links in order, no reverse of one after it. -/
def Unprocessed (processedLinks : List (List Char × List Char)) (links : List Link) : Prop :=
  (∀ link ∈ links, (link.toName,link.fromName) ∉ processedLinks) ∧
    links.Pairwise fun earlier later => (later.toName,later.fromName) ≠ (earlier.fromName,earlier.toName)

/-- What `Read` makes sure of. -/
structure Topology.Valid (topology : Topology) : Prop where
  words : ∀ node ∈ topology.nodes, IsWord node.name
  distinct : (names topology.nodes).Nodup
  columns : ∀ link ∈ topology.links, link.OfColumns
  ends : ∀ link ∈ topology.links, link.fromName ∈ names topology.nodes ∧ link.toName ∈ names topology.nodes
  single : Unprocessed [] topology.links

/-! The router section. -/

def routerLines (rest : List (List Char)) : List (List Char) :=
  (rest.takeWhile fun line => line ≠ linkSection).filter fun line => !isComment line

private theorem readNodes_nodes {nodes result : List Node} {rest : List (List Char)} {after : Option (List (List Char))}
    (done : readNodes nodes rest = some (result,after)) : result = nodes ++ (routerLines rest).filterMap readNode := by
  induction rest generalizing nodes with
  | nil =>
    cases done
    exact (List.append_nil _).symm
  | cons line rest ih =>
    unfold readNodes at done
    unfold routerLines at ih ⊢
    split at done
    · rename_i comment
      have other : line ≠ linkSection := by
        rintro rfl
        revert comment
        decide
      rw [List.takeWhile_cons_of_pos (by simpa using other),List.filter_cons_of_neg (by simpa using comment)]
      exact ih done
    · rename_i plain
      split at done
      · rename_i stop
        cases done
        rw [List.takeWhile_cons_of_neg (by simpa using stop)]
        exact (List.append_nil _).symm
      · rename_i other
        rw [List.takeWhile_cons_of_pos (by simpa using other),List.filter_cons_of_pos (by simpa using plain)]
        split at done
        · rename_i nameless
          rw [List.filterMap_cons_none nameless]
          exact ih done
        · rename_i node read
          split at done
          · cases done
          · rw [List.filterMap_cons_some read,ih done,List.append_assoc]
            rfl

private theorem readNodes_distinct {nodes result : List Node} {rest : List (List Char)} {after : Option (List (List Char))}
    (distinct : (names nodes).Nodup) (done : readNodes nodes rest = some (result,after)) : (names result).Nodup := by
  induction rest generalizing nodes with
  | nil =>
    cases done
    exact distinct
  | cons line rest ih =>
    unfold readNodes at done
    split at done
    · exact ih distinct done
    · split at done
      · cases done
        exact distinct
      · split at done
        · exact ih distinct done
        · rename_i node _
          split at done
          · cases done
          · rename_i fresh
            refine ih ?_ done
            unfold names at fresh distinct ⊢
            simpa using List.Nodup.concat fresh distinct

private theorem readNode_isWord {line : List Char} {node : Node} (read : readNode line = some node) : IsWord node.name := by
  unfold readNode at read
  dsimp only at read
  split at read
  · cases read
  · rename_i nonempty
    cases read
    exact extractWord_isWord line (by simpa using nonempty)

/-! The link section. -/

private theorem readLinks_valid {known : List (List Char)} {processedLinks : List (List Char × List Char)}
    {links result : List Link} {rest : List (List Char)} (done : readLinks known processedLinks links rest = some result) :
    ∃ added, result = links ++ added ∧ (∀ link ∈ added, link.OfColumns) ∧ (∀ link ∈ added, link.fromName ∈ known ∧ link.toName ∈ known) ∧ Unprocessed processedLinks added := by
  induction rest generalizing processedLinks links with
  | nil =>
    cases done
    exact ⟨[],(List.append_nil _).symm,by simp,by simp,by simp [Unprocessed]⟩
  | cons line rest ih =>
    unfold readLinks at done
    split at done
    · exact ih done
    · dsimp only at done
      split at done
      · exact ih done
      · rename_i fresh
        split at done
        · rename_i ends
          obtain ⟨added,rfl,columns,known,unprocessed,pairwise⟩ := ih done
          refine ⟨linkOf (words line) :: added,by simp,?_,?_,?_,?_⟩
          · exact List.forall_mem_cons.mpr ⟨⟨words line,fun _ => mem_words,rfl⟩,columns⟩
          · exact List.forall_mem_cons.mpr ⟨ends,known⟩
          · refine List.forall_mem_cons.mpr ⟨fresh,?_⟩
            exact fun link inside processed => unprocessed link inside (List.mem_cons_of_mem _ processed)
          · refine List.pairwise_cons.mpr ⟨?_,pairwise⟩
            exact fun link inside same => unprocessed link inside (same ▸ List.mem_cons_self ..)
        · cases done

section
variable {PointToPointHelper : Type} {applyLink : PointToPointHelper → Link → Option PointToPointHelper}
  {p2p : PointToPointHelper} {partitions : Option UInt32} {text : List Char} {topology : Topology}

private theorem read_cases (accepted : read applyLink p2p partitions text = some topology) :
    ∃ rest after, seekRouter (lines text) = some rest ∧ readNodes [] rest = some (topology.nodes,after) ∧
      match after with
      | none => topology.links = []
      | some rest => readLinks (names topology.nodes) [] [] rest = some topology.links ∧
          applySettings applyLink p2p partitions topology = true := by
  unfold read at accepted
  obtain ⟨rest,sought,accepted⟩ := Option.bind_eq_some_iff.mp accepted
  obtain ⟨⟨nodes,after⟩,read,accepted⟩ := Option.bind_eq_some_iff.mp accepted
  refine ⟨rest,after,sought,?_⟩
  cases after with
  | none =>
    cases accepted
    exact ⟨read,rfl⟩
  | some rest =>
    obtain ⟨links,linked,accepted⟩ := Option.bind_eq_some_iff.mp accepted
    split at accepted
    · rename_i applied
      cases accepted
      exact ⟨read,linked,applied⟩
    · cases accepted

private theorem read_valid (accepted : read applyLink p2p partitions text = some topology) : topology.Valid := by
  obtain ⟨rest,after,-,nodes,linked⟩ := read_cases accepted
  have listed := readNodes_nodes nodes
  have words : ∀ node ∈ topology.nodes, IsWord node.name := by
    intro node inside
    rw [listed,List.nil_append] at inside
    obtain ⟨line,-,read⟩ := List.mem_filterMap.mp inside
    exact readNode_isWord read
  have none : (names []).Nodup := List.nodup_nil
  have distinct := readNodes_distinct none nodes
  cases after with
  | none =>
    have nothing : topology.links = [] := linked
    exact ⟨words,distinct,by simp [nothing],by simp [nothing],by simp [nothing,Unprocessed]⟩
  | some rest =>
    obtain ⟨added,same,columns,ends,single⟩ := readLinks_valid linked.1
    rw [List.nil_append] at same
    exact ⟨words,distinct,same ▸ columns,same ▸ ends,same ▸ single⟩

end

/-! The saved nodes. -/

def restored (nodes : List Node) : List Node :=
  (nodes.filter fun node => !isComment node.name).map fun node => {node with systemId := 0}

private theorem nodeLine_isComment {node : Node} (isWord : IsWord node.name) (position : PrintedDouble × PrintedDouble) :
    isComment (nodeLine node position) = isComment node.name := by
  obtain ⟨nonempty,-⟩ := isWord
  unfold nodeLine isComment
  cases same : node.name with
  | nil => exact absurd same nonempty
  | cons first others => rfl

private theorem nodeLine_ne_linkSection (node : Node) (position : PrintedDouble × PrintedDouble) :
    nodeLine node position ≠ linkSection := by
  intro same
  have tab : '\t' ∈ linkSection := by
    rw [← same]
    simp [nodeLine]
  revert tab
  decide

private theorem readSystemId_printed (first second : PrintedDouble) : readSystemId ('\t' :: (first.text ++ '\t' :: second.text)) = 0 := by
  have tab : isSpace '\t' = true := by decide
  have ends : Ends ('\t' :: second.text) := by
    rintro c ⟨⟩
    exact tab
  have starts : ('\t' :: (first.text ++ '\t' :: second.text)).dropWhile isSpace = first.text ++ '\t' :: second.text := by
    rw [List.dropWhile_cons_of_pos tab]
    exact first.isWord_text.dropWhile_append _
  have follows : ('\t' :: second.text).dropWhile isSpace = second.text ++ [] := by
    rw [List.dropWhile_cons_of_pos tab,← second.isWord_text.dropWhile_append [],List.append_nil]
  have atEnd : Ends [] := fun c here => nomatch here
  unfold readSystemId
  rw [starts]
  rcases extractDouble_printed first ends with failed | read
  · rw [failed]
  · rw [read]
    dsimp only
    rw [follows]
    rcases extractDouble_printed second atEnd with failed | read
    · rw [failed]
    · rw [read]
      rfl

private theorem readNode_nodeLine {node : Node} (isWord : IsWord node.name) (position : PrintedDouble × PrintedDouble) :
    readNode (nodeLine node position) = some {node with systemId := 0} := by
  have split : nodeLine node position =
      node.name ++ '\t' :: (['N','A'] ++ '\t' :: (position.1.text ++ '\t' :: position.2.text)) := by
    simp [nodeLine]
  have tab : isSpace '\t' = true := by decide
  have city : IsWord ['N','A'] := ⟨by simp,by simp [isSpace]⟩
  unfold readNode
  rw [split,extractWord_append isWord tab]
  dsimp only
  rw [extractWord_skip tab,extractWord_append city tab]
  dsimp only
  rw [readSystemId_printed]
  simp [isWord.1]

def passed (line : List Char) : Bool := isComment line || (line ≠ linkSection && (readNode line).isNone)

private theorem readNodes_passed {skipped : List (List Char)} (all : ∀ line ∈ skipped, passed line = true) (nodes : List Node)
    (rest : List (List Char)) : readNodes nodes (skipped ++ rest) = readNodes nodes rest := by
  induction skipped with
  | nil => rfl
  | cons line skipped ih =>
    rw [List.cons_append,readNodes]
    split
    · exact ih fun other inside => all other (List.mem_cons_of_mem _ inside)
    · rename_i plain
      have quiet := all line (List.mem_cons_self ..)
      simp only [passed,plain,Bool.false_or,Bool.and_eq_true,decide_eq_true_eq,Option.isNone_iff_eq_none] at quiet
      rw [if_neg quiet.1,quiet.2]
      exact ih fun other inside => all other (List.mem_cons_of_mem _ inside)

private theorem names_append (nodes more : List Node) : names (nodes ++ more) = names nodes ++ names more := List.map_append

private theorem readNodes_nodeLines (before nodes : List Node) (positions : Nat → PrintedDouble × PrintedDouble)
    (words : ∀ node ∈ nodes, IsWord node.name) (distinct : (names (before ++ nodes)).Nodup) (rest : List (List Char)) :
    readNodes before (nodeLines nodes positions ++ rest) = readNodes (before ++ restored nodes) rest := by
  induction nodes generalizing before positions with
  | nil => simp [nodeLines,restored]
  | cons node nodes ih =>
    have isWord := words node (List.mem_cons_self ..)
    have others : ∀ node ∈ nodes, IsWord node.name := fun node inside => words node (List.mem_cons_of_mem _ inside)
    have split : nodeLines (node :: nodes) positions = nodeLine node (positions 0) :: nodeLines nodes fun index => positions (index + 1) := by
      simp [nodeLines,List.mapIdx_cons]
    rw [split,List.cons_append,readNodes,nodeLine_isComment isWord]
    cases comment : isComment node.name with
    | true =>
      have same : restored (node :: nodes) = restored nodes := by
        simp [restored,comment]
      rw [if_pos rfl,same]
      refine ih before _ others ?_
      rw [names_append] at distinct ⊢
      exact distinct.sublist (List.Sublist.append_left (List.sublist_cons_self ..) _)
    | false =>
      have same : restored (node :: nodes) = {node with systemId := 0} :: restored nodes := by
        simp [restored,comment]
      have fresh : ¬ node.name ∈ names before := by
        rw [names_append] at distinct
        intro inside
        exact (List.nodup_append.mp distinct).2.2 _ inside _ (List.mem_cons_self ..) rfl
      rw [if_neg (by decide),if_neg (nodeLine_ne_linkSection node _),readNode_nodeLine isWord]
      dsimp only
      rw [if_neg fresh,same,ih _ _ others]
      · simp
      · rw [names_append] at distinct
        simpa [names] using distinct

/-! The saved links. -/

def savedLink (link : Link) : List Char := (linkLine link).getD []

private theorem setColumn_word {word : List Char} (isWord : IsWord word) : setColumn word = some word := by
  simp [setColumn,isWord.1]

/-- The columns of a link that was read are those of the line written for it. -/
theorem linkOf_savedLink {columns : List (List Char)} (all : ∀ word ∈ columns, IsWord word) (ends : 2 ≤ columns.length) :
    linkOf (words (savedLink (linkOf columns))) = linkOf columns := by
  have tab : isSpace '\t' = true := by decide
  have empty : setColumn [] = none := rfl
  match columns with
  | [] => simp at ends
  | [_] => simp at ends
  | [first,second] =>
    simp only [List.forall_mem_cons] at all
    simp [savedLink,linkLine,linkOf,words_cons tab,all.1.words_append tab,all.2.1.words_append tab,empty]
  | [first,second,dataRate] =>
    simp only [List.forall_mem_cons] at all
    simp [savedLink,linkLine,linkOf,words_cons tab,all.1.words_append tab,all.2.1.words_append tab,
      all.2.2.1.words_append tab,empty]
  | [first,second,dataRate,ospf] =>
    simp only [List.forall_mem_cons] at all
    simp [savedLink,linkLine,linkOf,all.1.words_append tab,all.2.1.words_append tab,
      all.2.2.1.words_append tab,all.2.2.2.1.words_append tab,empty]
  | [first,second,dataRate,ospf,delay] =>
    simp only [List.forall_mem_cons] at all
    obtain ⟨one,two,three,four,five,-⟩ := all
    simp [savedLink,linkLine,linkOf,one.words_append tab,two.words_append tab,three.words_append tab,four.words_append tab,
      five.words_append tab,setColumn_word five,empty]
  | [first,second,dataRate,ospf,delay,maxPackets] =>
    simp only [List.forall_mem_cons] at all
    obtain ⟨one,two,three,four,five,six,-⟩ := all
    simp [savedLink,linkLine,linkOf,one.words_append tab,two.words_append tab,three.words_append tab,four.words_append tab,
      five.words_append tab,six.words_append tab,setColumn_word five,setColumn_word six,empty]
  | first :: second :: dataRate :: ospf :: delay :: maxPackets :: lossRate :: rest =>
    simp only [List.forall_mem_cons] at all
    obtain ⟨one,two,three,four,five,six,seven,-⟩ := all
    simp [savedLink,linkLine,linkOf,one.words_append tab,two.words_append tab,three.words_append tab,four.words_append tab,
      five.words_append tab,six.words_append tab,seven.words_append tab,setColumn_word five,setColumn_word six,
      setColumn_word seven]

section
variable {columns : List (List Char)} (all : ∀ word ∈ columns, IsWord word)
include all

private theorem plain_getD (index : Nat) : ∀ c ∈ columns.getD index [], isSpace c = false := by
  intro c inside
  rw [List.getD_eq_getElem?_getD] at inside
  cases found : columns[index]? with
  | none =>
    rw [found] at inside
    cases inside
  | some word =>
    rw [found] at inside
    exact (all word (List.mem_of_getElem? found)).2 c inside

private theorem savedLink_single : '\n' ∉ savedLink (linkOf columns) := by
  have column : ∀ index, '\n' ∉ columns.getD index [] := by
    intro index inside
    have space := plain_getD all index '\n' inside
    revert space
    decide
  have optional : ∀ index (more : List Char), '\n' ∉ more →
      '\n' ∉ (setColumn (columns.getD index [])).elim [] fun text => text ++ '\t' :: more := by
    intro index more none
    unfold setColumn
    split
    · simp
    · simpa using ⟨by simpa using column index,none⟩
  have lossRate := optional 6 [] (by simp)
  have maxPackets := optional 5 _ lossRate
  have delay := optional 4 _ maxPackets
  have written : savedLink (linkOf columns) = columns.getD 0 [] ++ '\t' :: (columns.getD 1 [] ++ '\t' :: (columns.getD 2 [] ++
      '\t' :: (columns.getD 3 [] ++ '\t' :: ((linkOf columns).delay.elim [] fun delay => delay ++ '\t' ::
        ((linkOf columns).maxPackets.elim [] fun maxPackets => maxPackets ++ '\t' ::
          ((linkOf columns).lossRate.elim [] fun lossRate => lossRate ++ ['\t'])))))) := rfl
  rw [written]
  simp only [List.mem_append,List.mem_cons,not_or]
  exact ⟨column 0,by decide,column 1,by decide,column 2,by decide,column 3,by decide,delay⟩

end

section
variable {links : List Link} (read : ∀ link ∈ links, link.OfColumns)
include read

private theorem mapM_linkLine : links.mapM linkLine = some (links.map savedLink) := by
  induction links with
  | nil => rfl
  | cons link links ih =>
    obtain ⟨⟨columns,-,rfl⟩,others⟩ := List.forall_mem_cons.mp read
    rw [List.mapM_cons,ih others]
    rfl

/-- The saved links are read as they were, if no name looks like a comment. -/
theorem readLinks_saved {known : List (List Char)} (words : ∀ name ∈ known, IsWord name)
    (plain : ∀ name ∈ known, isComment name = false)
    (ends : ∀ link ∈ links, link.fromName ∈ known ∧ link.toName ∈ known)
    (processedLinks : List (List Char × List Char)) (single : Unprocessed processedLinks links) (before : List Link) :
    readLinks known processedLinks before (links.map savedLink ++ [[]]) = some (before ++ links) := by
  induction links generalizing processedLinks before with
  | nil => simp [readLinks]
  | cons link links ih =>
    obtain ⟨⟨columns,all,rfl⟩,others⟩ := List.forall_mem_cons.mp read
    obtain ⟨here,later⟩ := List.forall_mem_cons.mp ends
    obtain ⟨fresh,pairwise⟩ := single
    have more : Unprocessed (((linkOf columns).fromName,(linkOf columns).toName) :: processedLinks) links := by
      obtain ⟨differs,pairwise⟩ := List.pairwise_cons.mp pairwise
      refine ⟨?_,pairwise⟩
      intro link inside processed
      rcases List.mem_cons.mp processed with same | before
      · exact differs link inside same
      · exact fresh link (List.mem_cons_of_mem _ inside) before
    have longer : 2 ≤ columns.length := by
      have second := (words _ here.2).1
      match columns with
      | [] => exact absurd rfl second
      | [_] => exact absurd rfl second
      | _ :: _ :: _ => simp
    have starts : savedLink (linkOf columns) ≠ [] ∧ isComment (savedLink (linkOf columns)) = false := by
      have nonempty := (words _ here.1).1
      have letter := plain _ here.1
      unfold savedLink linkLine
      cases first : (linkOf columns).fromName with
      | nil => exact absurd first nonempty
      | cons c others =>
        rw [first] at letter
        exact ⟨List.cons_ne_nil _ _,letter⟩
    rw [List.map_cons,List.cons_append,readLinks,if_neg (by simp [starts]),linkOf_savedLink all longer]
    dsimp only
    rw [if_neg (fresh _ (List.mem_cons_self ..)),if_pos here,ih others later _ more]
    simp

end

private theorem readLinks_passed {skipped : List (List Char)} (all : ∀ line ∈ skipped, (line.isEmpty || isComment line) = true)
    (known : List (List Char)) (processedLinks : List (List Char × List Char)) (links : List Link) (rest : List (List Char)) :
    readLinks known processedLinks links (skipped ++ rest) = readLinks known processedLinks links rest := by
  induction skipped with
  | nil => rfl
  | cons line skipped ih =>
    rw [List.cons_append,readLinks,if_pos (all line (List.mem_cons_self ..))]
    exact ih fun other inside => all other (List.mem_cons_of_mem _ inside)

private theorem seekRouter_append {skipped rest : List (List Char)} (others : ∀ line ∈ skipped, line ≠ routerSection)
    (more : rest ≠ []) : seekRouter (skipped ++ routerSection :: rest) = some rest := by
  induction skipped with
  | nil =>
    rw [List.nil_append,seekRouter,if_pos rfl,if_neg (by simpa using more)]
  | cons line skipped ih =>
    rw [List.cons_append,seekRouter,if_neg (others line (List.mem_cons_self ..))]
    exact ih fun other inside => others other (List.mem_cons_of_mem _ inside)

/-! The file. -/

def Blank (line : List Char) : Prop := line = [] ∨ ∃ rest, line = '#' :: rest ∧ '\n' ∉ rest

private theorem blank_comment {rest : List Char} (single : '\n' ∉ rest) : Blank (String.ofList ('#' :: rest)).toList := by
  rw [String.toList_ofList]
  exact Or.inr ⟨rest,rfl,single⟩

private theorem blank_saved : ∀ part ∈ [savedHeader,savedRouterComments,savedLinkHeader,savedLinkComments], ∀ line ∈ part, Blank line := by
  have empty : Blank "".toList := Or.inl rfl
  simp only [savedHeader,savedRouterComments,savedLinkHeader,savedLinkComments,List.map_cons,List.map_nil,List.forall_mem_cons]
  refine ⟨⟨?header,empty,?sections,empty,?routers,nofun⟩,⟨empty,?line,?columns,nofun⟩,⟨?links,empty,nofun⟩,
    ⟨empty,?format,?fields,?bandwidth,?metric,?delay,?queue,?error,nofun⟩,nofun⟩
  all_goals exact blank_comment (by decide +kernel)

theorem Blank.passed {line : List Char} (blank : Blank line) : passed line = true := by
  rcases blank with rfl | ⟨rest,rfl,-⟩
  · decide
  · rfl

theorem Blank.skipped {line : List Char} (blank : Blank line) : (line.isEmpty || isComment line) = true := by
  rcases blank with rfl | ⟨rest,rfl,-⟩
  · rfl
  · rfl

theorem Blank.single {line : List Char} (blank : Blank line) : '\n' ∉ line := by
  rcases blank with rfl | ⟨rest,rfl,single⟩
  · exact List.not_mem_nil
  · exact List.not_mem_cons_of_ne_of_not_mem (by decide) single

theorem Blank.ne_routerSection {line : List Char} (blank : Blank line) : line ≠ routerSection := by
  rcases blank with rfl | ⟨rest,rfl,-⟩
  · decide
  · intro same
    have first : some '#' = routerSection.head? := congrArg List.head? same
    revert first
    decide

private theorem nodeLine_single {node : Node} (isWord : IsWord node.name) (position : PrintedDouble × PrintedDouble) :
    '\n' ∉ nodeLine node position := by
  have plain : ∀ word : List Char, IsWord word → '\n' ∉ word := by
    intro word isWord inside
    have space := isWord.2 '\n' inside
    revert space
    decide
  unfold nodeLine
  simp only [List.mem_append,List.mem_cons,not_or]
  have name := plain _ isWord
  have first := plain _ position.1.isWord_text
  have second := plain _ position.2.isWord_text
  exact ⟨⟨⟨name,by decide⟩,by decide,first⟩,by decide,second⟩

section
variable {topology : Topology} (valid : topology.Valid) (positions : Nat → PrintedDouble × PrintedDouble)
include valid

private theorem saveTopology_lines : ∃ saved, saveTopology topology positions = some saved ∧
    lines saved = savedHeader ++ routerSection :: (savedRouterComments ++ (nodeLines topology.nodes positions ++
      (savedLinkHeader ++ linkSection :: (savedLinkComments ++ (topology.links.map savedLink ++ [[]]))))) := by
  have written : savedLines topology positions = some (savedHeader ++ routerSection :: (savedRouterComments ++
      (nodeLines topology.nodes positions ++ (savedLinkHeader ++ linkSection :: (savedLinkComments ++
        topology.links.map savedLink))))) := by
    unfold savedLines
    rw [mapM_linkLine valid.columns]
    rfl
  unfold saveTopology
  rw [written]
  refine ⟨_,rfl,?_⟩
  rw [lines_flatMap]
  · simp
  · have blank := blank_saved
    simp only [List.forall_mem_cons] at blank
    obtain ⟨header,routerComments,linkHeader,linkComments,-⟩ := blank
    have sections : '\n' ∉ routerSection ∧ '\n' ∉ linkSection := by decide
    intro line inside
    simp only [List.mem_append,List.mem_cons] at inside
    rcases inside with here | rfl | here | here | here | rfl | here | here
    · exact (header line here).single
    · exact sections.1
    · exact (routerComments line here).single
    · obtain ⟨index,bound,rfl⟩ := List.mem_mapIdx.mp here
      exact nodeLine_single (valid.words _ (List.getElem_mem bound)) _
    · exact (linkHeader line here).single
    · exact sections.2
    · exact (linkComments line here).single
    · obtain ⟨saved,inside,rfl⟩ := List.mem_map.mp here
      obtain ⟨columns,all,rfl⟩ := valid.columns saved inside
      exact savedLink_single all

private theorem read_saved {PointToPointHelper : Type} (applyLink : PointToPointHelper → Link → Option PointToPointHelper)
    (p2p : PointToPointHelper) (partitions : Option UInt32) :
    ∃ saved, saveTopology topology positions = some saved ∧ read applyLink p2p partitions saved =
      (readLinks (names (restored topology.nodes)) [] [] (topology.links.map savedLink ++ [[]])).bind fun links =>
        if applySettings applyLink p2p partitions ⟨restored topology.nodes,links⟩ then some ⟨restored topology.nodes,links⟩
        else none := by
  obtain ⟨saved,written,split⟩ := saveTopology_lines valid positions
  refine ⟨saved,written,?_⟩
  have blank := blank_saved
  simp only [List.forall_mem_cons] at blank
  obtain ⟨header,routerComments,linkHeader,linkComments,-⟩ := blank
  have nodes : readNodes [] (savedRouterComments ++ (nodeLines topology.nodes positions ++
      (savedLinkHeader ++ linkSection :: (savedLinkComments ++ (topology.links.map savedLink ++ [[]]))))) =
        some (restored topology.nodes,some (savedLinkComments ++ (topology.links.map savedLink ++ [[]]))) := by
    rw [readNodes_passed fun line inside => (routerComments line inside).passed,readNodes_nodeLines [] topology.nodes positions valid.words valid.distinct,
      readNodes_passed fun line inside => (linkHeader line inside).passed,readNodes,if_neg (by decide),if_pos rfl]
    rfl
  unfold read
  rw [split,seekRouter_append (fun line inside => (header line inside).ne_routerSection) (by simp [savedRouterComments]),Option.bind_some,nodes,Option.bind_some]
  dsimp only
  rw [readLinks_passed fun line inside => (linkComments line inside).skipped]

end

/-! The round trip. -/

private theorem restored_eq_self_iff (nodes : List Node) :
    restored nodes = nodes ↔ ∀ node ∈ nodes, node.systemId = 0 ∧ isComment node.name = false := by
  constructor
  · intro same node inside
    rw [← same] at inside
    obtain ⟨other,member,rfl⟩ := List.mem_map.mp inside
    exact ⟨rfl,by simpa using (List.mem_filter.mp member).2⟩
  · intro all
    have kept : nodes.filter (fun node => !isComment node.name) = nodes :=
      List.filter_eq_self.mpr fun node inside => by simp [(all node inside).2]
    unfold restored
    rw [kept]
    refine (List.map_congr_left fun node inside => ?_).trans (List.map_id nodes)
    rw [← (all node inside).1]
    rfl

private theorem requiredPartitions_restored (nodes : List Node) : requiredPartitions (restored nodes) = 1 := by
  unfold requiredPartitions restored
  generalize nodes.filter _ = kept
  induction kept with
  | nil => rfl
  | cons node kept ih => exact ih

/-- The lines for nodes give no system id and no name that starts as comments do. -/
def Restorable (text : List Char) : Prop :=
  ∀ rest, seekRouter (lines text) = some rest → ∀ line ∈ routerLines rest, ∀ node, readNode line = some node →
    node.systemId = 0 ∧ isComment node.name = false

instance (text : List Char) : Decidable (Restorable text) :=
  inferInstanceAs (Decidable (∀ rest ∈ seekRouter (lines text), ∀ line ∈ routerLines rest, ∀ node ∈ readNode line,
    node.systemId = 0 ∧ isComment node.name = false))

section
variable {PointToPointHelper : Type} {applyLink : PointToPointHelper → Link → Option PointToPointHelper}
  {p2p : PointToPointHelper} {partitions : Option UInt32} {text : List Char} {topology : Topology}

private theorem restorable_iff (accepted : read applyLink p2p partitions text = some topology) :
    Restorable text ↔ restored topology.nodes = topology.nodes := by
  obtain ⟨rest,after,sought,nodes,-⟩ := read_cases accepted
  have listed := readNodes_nodes nodes
  rw [List.nil_append] at listed
  rw [restored_eq_self_iff,listed]
  constructor
  · intro restorable node inside
    obtain ⟨line,member,read⟩ := List.mem_filterMap.mp inside
    exact restorable rest sought line member node read
  · intro all other here line member node read
    cases here.symm.trans sought
    exact all node (List.mem_filterMap.mpr ⟨line,member,read⟩)

private theorem restores_of_restorable (accepted : read applyLink p2p partitions text = some topology) (restorable : Restorable text)
    (one : partitions.all (fun size => size = 1) = true) (positions : Nat → PrintedDouble × PrintedDouble) :
    ∃ saved, saveTopology topology positions = some saved ∧ read applyLink p2p partitions saved = some topology := by
  have valid := read_valid accepted
  have same := (restorable_iff accepted).mp restorable
  have plain := (restored_eq_self_iff _).mp same
  obtain ⟨saved,written,read⟩ := read_saved valid positions applyLink p2p partitions
  refine ⟨saved,written,?_⟩
  have words : ∀ name ∈ names topology.nodes, IsWord name := List.forall_mem_map.mpr valid.words
  have uncommented : ∀ name ∈ names topology.nodes, isComment name = false :=
    List.forall_mem_map.mpr fun node inside => (plain node inside).2
  have links := readLinks_saved valid.columns words uncommented valid.ends [] valid.single []
  have required := requiredPartitions_restored topology.nodes
  rw [same] at required read
  rw [read,links,Option.bind_some,List.nil_append,if_pos]
  unfold applySettings
  rw [required,one,Bool.true_and]
  obtain ⟨rest,after,-,-,linked⟩ := read_cases accepted
  cases after with
  | none =>
    have nothing : topology.links = [] := linked
    rw [nothing]
    rfl
  | some rest => exact (Bool.and_eq_true_iff.mp linked.2).2

/-- A saved topology is read as it was exactly if its file has no system id but zero and no names
that look like comments, and MPI does not count more than one partition. -/
theorem read_saveTopology_iff (accepted : read applyLink p2p partitions text = some topology)
    (positions : Nat → PrintedDouble × PrintedDouble) :
    (∃ saved, saveTopology topology positions = some saved ∧ read applyLink p2p partitions saved = some topology) ↔
      Restorable text ∧ partitions.all (fun size => size = 1) = true := by
  constructor
  · rintro ⟨saved,written,again⟩
    obtain ⟨other,same,read⟩ := read_saved (read_valid accepted) positions applyLink p2p partitions
    cases same.symm.trans written
    rw [read] at again
    obtain ⟨links,-,again⟩ := Option.bind_eq_some_iff.mp again
    split at again
    · rename_i applied
      have nodes : restored topology.nodes = topology.nodes := congrArg Topology.nodes (Option.some.inj again)
      refine ⟨(restorable_iff accepted).mpr nodes,?_⟩
      have size := (Bool.and_eq_true_iff.mp applied).1
      rw [requiredPartitions_restored] at size
      exact size
    · cases again
  · rintro ⟨restorable,one⟩
    exact restores_of_restorable accepted restorable one positions

end

def printedPositions : Nat → PrintedDouble × PrintedDouble
  | 0 => (.finite false 1 [] [5] none,.finite true 2 [] [] none)
  | _ => (.finite false 1 [] [] none,.finite false 1 [] [] none)

def plainFile : List Char := "router\nA NA 1.5 -2\nB NA 1 1\nlink\nA B 1Mbps 1 10ms 20\n".toList

def plainTopology : Topology :=
  ⟨[⟨['A'],0⟩,⟨['B'],0⟩],[linkOf [['A'],['B'],"1Mbps".toList,['1'],"10ms".toList,['2','0']]]⟩

theorem read_saveTopology_plainFile : ∃ saved, saveTopology plainTopology printedPositions = some saved ∧
    read (fun _ _ => some ()) () none saved = some plainTopology := by
  have spelled : plainFile = _ := String.toList_ofList
  have accepted : read (fun _ _ => some ()) () none plainFile = some plainTopology := by
    rw [spelled]
    decide +kernel
  have restorable : Restorable plainFile := by
    rw [spelled]
    decide +kernel
  exact (read_saveTopology_iff accepted _).mpr ⟨restorable,rfl⟩

def partitionedFile : List Char := "router\nA NA 1.5 -2 1\nB NA 1 1 0\nlink\nA B 1Mbps 1\n".toList

def partitionedTopology : Topology := ⟨[⟨['A'],1⟩,⟨['B'],0⟩],[linkOf [['A'],['B'],"1Mbps".toList,['1']]]⟩

/-- The system id is not saved. -/
theorem partitionedFile_not_restored : read (fun _ _ => some ()) () none partitionedFile = some partitionedTopology ∧
    ¬ ∃ saved, saveTopology partitionedTopology printedPositions = some saved ∧
      read (fun _ _ => some ()) () none saved = some partitionedTopology := by
  have spelled : partitionedFile = _ := String.toList_ofList
  have accepted : read (fun _ _ => some ()) () none partitionedFile = some partitionedTopology := by
    rw [spelled]
    decide +kernel
  refine ⟨accepted,?_⟩
  rintro ⟨saved,written,again⟩
  obtain ⟨other,same,read⟩ := read_saved (read_valid accepted) printedPositions (fun _ _ => some ()) () none
  cases same.symm.trans written
  rw [read] at again
  obtain ⟨links,-,again⟩ := Option.bind_eq_some_iff.mp again
  split at again
  · have nodes : restored partitionedTopology.nodes = partitionedTopology.nodes :=
      congrArg Topology.nodes (Option.some.inj again)
    revert nodes
    decide
  · cases again

end Ncfcc.Utils.AnnotatedTopologyReader
