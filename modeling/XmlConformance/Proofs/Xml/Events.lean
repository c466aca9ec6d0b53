import XmlConformance.Proofs.Xml.Calls

/-!
# Proofs/Xml/Events — no text changes the structure of what is written

The tree that is read from a written document has the structure of the calls that wrote it
(`Writer.ofText_written`): its events in document order (`Node.events`) are those that the calls
stand for, one by one (`Writer.Call.event?`). Nothing in a value or a text can start or end an
element, or bring in an attribute. Only where an attribute is called `xmlns` it matters what its
value is, since that declares a namespace.

Texts that stand next to each other are read as one, so they are joined before the two sides are
compared (`Writer.Call.joinTexts`).
-/

namespace XmlConformance.Xml

open Writer (Call)

/-! ## Events -/

/-- What a tree holds at a place, in document order. -/
inductive Event where
  /-- An element starts, with a given local name. -/
  | start (name : String)
  | attribute (name : ExpandedName) (value : String)
  | text (value : String)
  | endElement
  /-- A comment or a processing instruction. -/
  | other
deriving DecidableEq, Repr

namespace Node

mutual

/-- **The events of a node**, in document order. -/
def events : Node → List Event
  | .root cs => eventsOf cs
  | .element t cs =>
    .start t.name.localName ::
      (t.attributes.map (fun a => .attribute a.name a.value) ++ (eventsOf cs ++ [.endElement]))
  | .text s => [.text s]
  | .comment _ | .instruction .. => [.other]

/-- The events of several nodes. -/
def eventsOf : List Node → List Event
  | [] => []
  | n :: ns => n.events ++ eventsOf ns

end

theorem eventsOf_append (ns ms : List Node) : eventsOf (ns ++ ms) = eventsOf ns ++ eventsOf ms := by
  induction ns with
  | nil => rfl
  | cons n ns ih => rw [List.cons_append, eventsOf, eventsOf, ih, List.append_assoc]

end Node

namespace Writer.Call

/-- **The event that a call stands for**: none, if it declares the default namespace, or writes an
empty text. -/
def event? : Call → Option Event
  | .start name => some (.start name)
  | .attr name value =>
    if name = "xmlns" then none else some (.attribute ⟨none, name⟩ (valueBack value))
  | .text s => if s = "" then none else some (.text (textBack s))
  | .endElement => some .endElement

/-- Calls with texts that stand next to each other joined. -/
def joinTexts : List Call → List Call
  | [] => []
  | .text s :: calls =>
    match joinTexts calls with
    | .text t :: rest => .text (s ++ t) :: rest
    | rest => .text s :: rest
  | c :: calls => c :: joinTexts calls

end Writer.Call

/-! ## Fragments -/

theorem filterMap_event_attributes (attributes : List (String × String)) :
    (attributes.map fun a => Call.attr a.1 a.2).filterMap Call.event? =
      (attributesBack (withoutDefault attributes)).map fun a => .attribute a.name a.value := by
  induction attributes with
  | nil => rfl
  | cons a attributes ih =>
    rw [List.map_cons, withoutDefault]
    by_cases ha : a.1 = "xmlns"
    · have hnone : Call.event? (.attr a.1 a.2) = none := if_pos ha
      rw [List.filterMap_cons_none hnone, List.filter_cons_of_neg (by simp [ha]), ih]
      rfl
    · have hsome : Call.event? (.attr a.1 a.2) = some (.attribute ⟨none, a.1⟩ (valueBack a.2)) :=
        if_neg ha
      rw [List.filterMap_cons_some hsome, List.filter_cons_of_pos (by simp [ha]), ih]
      rfl

namespace Fragment

mutual

/-- **The nodes that a fragment without labels is read as** have the events of its calls. -/
theorem events_of_back {inherited : List Declaration} {start : ℕ} {nodes : List Node} :
    ∀ {f : Fragment}, f.Plain → f.back inherited start = some nodes →
      Node.eventsOf nodes = f.calls.filterMap Call.event?
  | .text s, _, h => by
    rw [back, Option.some.injEq] at h
    rw [← h, calls]
    by_cases hs : s = ""
    · have hnone : Call.event? (.text s) = none := if_pos hs
      rw [if_pos hs, List.filterMap_cons_none hnone]
      rfl
    · have hsome : Call.event? (.text s) = some (.text (textBack s)) := if_neg hs
      rw [if_neg hs, List.filterMap_cons_some hsome]
      rfl
  | .element name attributes content, ⟨hname, hattributes, hnodup, hcontent⟩, h => by
    obtain ⟨n, tag, children, htag, hchildren, rfl⟩ := back_element_eq_some_iff.1 h
    obtain ⟨hlocal, hread⟩ := tag_of_tagBack hname (fun a ha => (hattributes a ha).1) hnodup htag
    rw [Node.eventsOf, Node.eventsOf, List.append_nil, Node.events,
      hlocal, hread, events_of_backAll hcontent hchildren, calls, ← filterMap_event_attributes]
    simp [Call.event?]

theorem events_of_backAll {inherited : List Declaration} {start : ℕ} {nodes : List Node} :
    ∀ {fs : List Fragment}, AllPlain fs → backAll inherited start fs = some nodes →
      Node.eventsOf nodes = (callsOf fs).filterMap Call.event?
  | [], _, h => by
    obtain rfl : [] = nodes := Option.some.inj h
    rfl
  | f :: fs, hplain, h => by
    obtain ⟨first, more, hfirst, hmore, rfl⟩ := backAll_cons_eq_some_iff.1 h
    rw [Node.eventsOf_append, events_of_back hplain.1 hfirst,
      events_of_backAll hplain.2 hmore, callsOf, List.filterMap_append]

end

variable {uri : String}

theorem mem_calls_element {name : String} {attributes : List (String × String)}
    {content : List Fragment} : Call.attr "xmlns" uri ∈ (element name attributes content).calls ↔
      ("xmlns", uri) ∈ attributes ∨ Call.attr "xmlns" uri ∈ callsOf content := by
  rw [calls]
  simp

mutual

/-- **A fragment without labels can be read** if it declares no default namespace that must not be
one. -/
theorem exists_back_iff {inherited : List Declaration} {start : ℕ} : ∀ {f : Fragment}, f.Plain →
    ((∃ nodes, f.back inherited start = some nodes) ↔
      ∀ uri, Call.attr "xmlns" uri ∈ f.calls → MayBeDefault uri)
  | .text s, _ => by
    rw [back, calls]
    exact iff_of_true ⟨_, rfl⟩ (by simp)
  | .element name attributes content, ⟨hname, hattributes, hnodup, hcontent⟩ => by
    have htag : (∃ read, tagBack inherited start name attributes = some read) ↔ _ :=
      exists_tagBack_iff hname (fun a ha => (hattributes a ha).1) hnodup
    simp only [mem_calls_element, or_imp, forall_and, ← htag]
    constructor
    · rintro ⟨nodes, h⟩
      obtain ⟨n, tag, children, htag, hchildren, -⟩ := back_element_eq_some_iff.1 h
      exact ⟨⟨_, htag⟩, (exists_backAll_iff hcontent).1 ⟨children, hchildren⟩⟩
    · rintro ⟨⟨⟨n, tag⟩, htag⟩, hdefaults⟩
      obtain ⟨children, hchildren⟩ : ∃ children, backAll tag.scope
          (start + (tagChars name attributes).length + 1) content = some children :=
        (exists_backAll_iff hcontent).2 hdefaults
      exact ⟨_, back_element_eq_some_iff.2 ⟨n, tag, children, htag, hchildren, rfl⟩⟩

theorem exists_backAll_iff {inherited : List Declaration} {start : ℕ} : ∀ {fs : List Fragment},
    AllPlain fs → ((∃ nodes, backAll inherited start fs = some nodes) ↔
      ∀ uri, Call.attr "xmlns" uri ∈ callsOf fs → MayBeDefault uri)
  | [], _ => iff_of_true ⟨_, rfl⟩ nofun
  | f :: fs, hplain => by
    simp only [callsOf, List.mem_append, or_imp, forall_and]
    constructor
    · rintro ⟨nodes, h⟩
      obtain ⟨first, more, hfirst, hmore, -⟩ := backAll_cons_eq_some_iff.1 h
      exact ⟨(exists_back_iff hplain.1).1 ⟨first, hfirst⟩,
        (exists_backAll_iff hplain.2).1 ⟨more, hmore⟩⟩
    · rintro ⟨hf, hfs⟩
      obtain ⟨first, hfirst⟩ : ∃ first, f.back inherited start = some first :=
        (exists_back_iff hplain.1).2 hf
      obtain ⟨more, hmore⟩ : ∃ more, backAll inherited (start + f.chars.length) fs = some more :=
        (exists_backAll_iff hplain.2).2 hfs
      exact ⟨_, backAll_cons_eq_some_iff.2 ⟨first, more, hfirst, hmore, rfl⟩⟩

end

end Fragment

/-! ## Joining texts -/

namespace Writer.Call

/-- A call that writes no text keeps the texts in front of it apart from those behind. -/
theorem joinTexts_append_cons {c : Call} (hc : ∀ s, c ≠ .text s) (calls : List Call) :
    ∀ front : List Call, joinTexts (front ++ c :: calls) = joinTexts front ++ c :: joinTexts calls
  | [] => by
    cases c with
    | text s => exact absurd rfl (hc s)
    | start | attr | endElement => rfl
  | .text s :: front => by
    rw [List.cons_append, joinTexts, joinTexts, joinTexts_append_cons hc calls front]
    cases joinTexts front with
    | nil =>
      cases c with
      | text s => exact absurd rfl (hc s)
      | start | attr | endElement => rfl
    | cons d rest => cases d <;> rfl
  | .start _ :: front | .attr _ _ :: front | .endElement :: front =>
    congrArg _ (joinTexts_append_cons hc calls front)

/-- An end keeps texts apart. -/
theorem joinTexts_append_endElement (front calls : List Call) :
    joinTexts (front ++ [.endElement] ++ calls) =
      joinTexts (front ++ [.endElement]) ++ joinTexts calls := by
  have hapart := joinTexts_append_cons (c := .endElement) nofun
  rw [List.append_assoc, List.singleton_append, hapart, hapart, List.append_assoc]
  rfl

theorem joinTexts_attributes (attributes : List (String × String)) (calls : List Call) :
    joinTexts (attributes.map (fun a => .attr a.1 a.2) ++ calls) =
      attributes.map (fun a => .attr a.1 a.2) ++ joinTexts calls := by
  induction attributes with
  | nil => rfl
  | cons a attributes ih => exact congrArg _ ih

theorem attr_mem_joinTexts {name value : String} : ∀ calls : List Call,
    .attr name value ∈ joinTexts calls ↔ .attr name value ∈ calls
  | [] => Iff.rfl
  | .text s :: calls => by
    rw [List.mem_cons, or_iff_right nofun, ← attr_mem_joinTexts calls, joinTexts]
    cases joinTexts calls with
    | nil => simp
    | cons c rest => cases c <;> simp
  | .start _ :: calls | .attr _ _ :: calls | .endElement :: calls => by
    rw [joinTexts, List.mem_cons, List.mem_cons, attr_mem_joinTexts calls]
    all_goals simp

theorem attr_mem_balanced {name value : String} : ∀ {opened : ℕ} {calls : List Call},
    .attr name value ∈ balanced opened calls ↔ .attr name value ∈ calls
  | _, [] => by simp [balanced, List.mem_replicate]
  | 0, .endElement :: calls | opened + 1, .endElement :: calls => by
    rw [balanced]
    simp [attr_mem_balanced]
  | _, .start _ :: calls | _, .attr _ _ :: calls | _, .text _ :: calls => by
    rw [balanced]
    simp [attr_mem_balanced]

end Writer.Call

namespace Fragment

mutual

/-- **Joining the texts of a fragment** is joining those of its calls. -/
theorem calls_joined : ∀ f : Fragment, f.joined.calls = Call.joinTexts f.calls
  | .text s => by
    rw [joined, calls]
    rfl
  | .element name attributes content => by
    have hcontent := Call.joinTexts_append_cons (c := .endElement) nofun [] (callsOf content)
    rw [joined, calls, calls, callsOf_joinedAll content, Call.joinTexts, Call.joinTexts_attributes,
      hcontent]
    · rfl
    · exact nofun

theorem callsOf_joinedAll : ∀ fs : List Fragment,
    callsOf (joinedAll fs) = Call.joinTexts (callsOf fs)
  | [] => by
    rw [joinedAll]
    rfl
  | .text s :: fs => by
    rw [joinedAll, joined, callsOf, calls, List.singleton_append, Call.joinTexts,
      ← callsOf_joinedAll fs]
    cases joinedAll fs with
    | nil => rfl
    | cons g gs => cases g <;> rfl
  | .element name attributes content :: fs => by
    have hjoined := calls_joined (.element name attributes content)
    have hends : (element name attributes content).calls =
        .start name :: (attributes.map (fun a => .attr a.1 a.2) ++ callsOf content) ++
          [.endElement] := by
      simp [calls]
    rw [callsOf, hends, Call.joinTexts_append_endElement, ← hends, ← hjoined,
      ← callsOf_joinedAll fs, joinedAll, joined]
    rfl

end

end Fragment

/-! ## What was written -/

theorem Fragment.render_joined (f : Fragment) : f.joined.render = f.render := by
  rw [← String.toList_inj, toList_render, toList_render, chars_joined]

open Writer (written Admissible)
open Writer.Call (balanced joinTexts event?)

/-- **No text changes the structure of what is written.** Whatever characters the values and texts
of admissible calls hold, what is written is a document, and the events of its tree are those that
the calls stand for, with an end for every start and with texts that stand next to each other
joined. An attribute called `xmlns` is the exception: it declares the default namespace, and what is
written is no document if it declares one of the two that must not be the default. -/
theorem Writer.ofText_written {calls : List Call} (h : Admissible calls) :
    ((∃ root, Node.ofText (written calls) = some root) ↔
        ∀ uri, .attr "xmlns" uri ∈ calls → uri ≠ xmlUri ∧ uri ≠ xmlnsUri) ∧
      ∀ root, Node.ofText (written calls) = some root →
        root.events = (joinTexts (balanced 0 calls)).filterMap event? := by
  obtain ⟨e, hplain, hwritten, hcalls⟩ := exists_fragment h
  have hjoined : e.fragment.joined.calls = joinTexts (balanced 0 calls) := by
    rw [Fragment.calls_joined, hcalls]
  have hread : ∀ {root}, Node.ofText (written calls) = some root →
      ∃ n, e.fragment.joined.back [] 0 = some [n] ∧ root = .root [n] := by
    intro root hroot
    rw [hwritten] at hroot
    rw [OpenElement.fragment, Fragment.joined]
    exact Fragment.back_of_ofText_render hplain.named hroot
  refine ⟨⟨?_, fun hdefaults => ?_⟩, fun root hroot => ?_⟩
  · rintro ⟨root, hroot⟩ uri huri
    obtain ⟨n, hback, -⟩ := hread hroot
    refine (Fragment.exists_back_iff hplain.joined).1 ⟨_, hback⟩ uri ?_
    rwa [hjoined, Call.attr_mem_joinTexts, Call.attr_mem_balanced]
  · obtain ⟨nodes, hback⟩ : ∃ nodes, e.fragment.joined.back [] 0 = some nodes := by
      refine (Fragment.exists_back_iff hplain.joined).2 fun uri huri => hdefaults uri ?_
      rwa [hjoined, Call.attr_mem_joinTexts, Call.attr_mem_balanced] at huri
    have hclean := hplain.joined.clean (Fragment.joined_joined e.fragment)
    rw [hwritten, ← Fragment.render_joined]
    rw [OpenElement.fragment, Fragment.joined] at hback hclean ⊢
    obtain ⟨tag, children, rfl⟩ := Fragment.eq_singleton_of_back rfl hback
    exact ⟨_, Fragment.ofText_render hclean hback⟩
  · obtain ⟨n, hback, rfl⟩ := hread hroot
    have hevents := Fragment.events_of_back hplain.joined hback
    rw [hjoined, Node.eventsOf, Node.eventsOf, List.append_nil] at hevents
    rw [Node.events, Node.eventsOf, Node.eventsOf, List.append_nil, hevents]

/-- Calls with markup in a value and in two texts, and with ends that are missing. -/
def markupInData : List Call :=
  [.start "a", .attr "b" "\"/><x c=\"", .text "</a><!--", .text "&", .start "d"]

theorem Writer.ofText_written_markupInData : Admissible markupInData ∧
    ∃ root, Node.ofText (written markupInData) = some root ∧
      root.events = [.start "a", .attribute ⟨none, "b"⟩ "\"/><x c=\"", .text "</a><!--&",
        .start "d", .endElement, .endElement] := by
  have h : Admissible markupInData :=
    ⟨⟨by decide, fun _ => rfl⟩, ⟨⟨[], rfl, by simp⟩, by decide, by decide⟩,
      ⟨Nat.one_pos, by decide⟩, ⟨Nat.one_pos, by decide⟩, ⟨by decide, nofun⟩, rfl⟩
  obtain ⟨hdocument, hevents⟩ := ofText_written h
  obtain ⟨root, hroot⟩ := hdocument.2 (by simp [markupInData])
  exact ⟨h, root, hroot, (hevents root hroot).trans (by decide +kernel)⟩

/-- **An attribute called `xmlns` is none when it is read**, and may make what is written no
document. -/
theorem Writer.written_xmlns :
    (Admissible [.start "a", .attr "xmlns" xmlUri] ∧
        Node.ofText (written [.start "a", .attr "xmlns" xmlUri]) = none) ∧
      Admissible [.start "a", .attr "xmlns" "u"] ∧
        (Node.ofText (written [.start "a", .attr "xmlns" "u"])).map Node.events =
          some [.start "a", .endElement] := by
  have h : ∀ uri, XmlText uri → Admissible [.start "a", .attr "xmlns" uri] := fun uri huri =>
    ⟨⟨by decide, fun _ => rfl⟩, ⟨⟨[], rfl, by simp⟩, by decide, huri⟩, rfl⟩
  refine ⟨⟨h _ (by decide), ?_⟩, h _ (by decide), by decide +kernel⟩
  rw [← Option.isNone_iff_eq_none]
  decide +kernel

end XmlConformance.Xml
