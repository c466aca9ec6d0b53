import XmlConformance.Proofs.Xml.Rereading
import XmlConformance.Proofs.Xml.RoundTrip
import XmlConformance.Proofs.Xml.Subtrees

/-!
# Proofs/Xml/Placing — the place of a fragment in a text

Where a fragment stands in a text only shows in the places that its tags remember. But for these
(`Node.unplaced`) it is read as the same tree at any place, below the same declarations
(`Fragment.back_unplaced`).
-/

namespace XmlConformance.Xml

/-- A tag without its place in the text. -/
def Tag.unplaced (t : Tag) : Tag :=
  { t with start := 0 }

namespace Node

mutual

/-- A tree without the places of its tags in the text. -/
def unplaced : Node → Node
  | .root cs => .root (allUnplaced cs)
  | .element t cs => .element t.unplaced (allUnplaced cs)
  | .text s => .text s
  | .comment s => .comment s
  | .instruction target value => .instruction target value

/-- Trees without the places of their tags in the text. -/
def allUnplaced : List Node → List Node
  | [] => []
  | n :: ns => n.unplaced :: allUnplaced ns

end

theorem allUnplaced_eq_map : ∀ ns : List Node, allUnplaced ns = ns.map unplaced
  | [] => rfl
  | n :: ns => congrArg (n.unplaced :: ·) (allUnplaced_eq_map ns)

end Node

variable {inherited : List Declaration} {start start' : ℕ}

theorem resolveTag_unplaced {own : List Declaration} {n : RawName}
    {others : List (RawName × String)} {tag : Tag}
    (h : resolveTag inherited own n others start = some tag) (start' : ℕ) :
    resolveTag inherited own n others start' = some { tag with start := start' } := by
  have hstart := resolveTag_eq_some_iff.1 h
  exact resolveTag_eq_some_iff.2 { hstart with start := rfl }

/-- **A start tag stands for the same tag at any place**, but for the place. -/
theorem tagBack_unplaced {name : String} {attributes : List (String × String)} {n : RawName}
    {tag : Tag} (h : tagBack inherited start name attributes = some (n, tag)) (start' : ℕ) :
    tagBack inherited start' name attributes = some (n, { tag with start := start' }) := by
  obtain ⟨hname, named, hnamed, own, others, hbind, htag⟩ := tagBack_eq_some_iff.1 h
  exact tagBack_eq_some_iff.2
    ⟨hname, named, hnamed, own, others, hbind, resolveTag_unplaced htag start'⟩

namespace Fragment

mutual

/-- **A fragment is read as the same tree at any place**, but for the places of its tags. -/
theorem back_unplaced {inherited : List Declaration} {start start' : ℕ} : ∀ {f : Fragment}
    {ns ms : List Node}, f.back inherited start = some ns → f.back inherited start' = some ms →
      ns.map Node.unplaced = ms.map Node.unplaced
  | .text s, _, _, h, h' => by
    rw [back] at h h'
    rw [Option.some.inj (h.symm.trans h')]
  | .element name attributes content, _, _, h, h' => by
    obtain ⟨n, o, children, htag, hchildren, rfl⟩ := back_element_eq_some_iff.1 h
    obtain ⟨n', o', children', htag', hchildren', rfl⟩ := back_element_eq_some_iff.1 h'
    obtain ⟨-, rfl⟩ :=
      Prod.mk.inj (Option.some.inj ((tagBack_unplaced htag start').symm.trans htag'))
    rw [List.map_singleton, List.map_singleton, Node.unplaced, Node.unplaced,
      Node.allUnplaced_eq_map, Node.allUnplaced_eq_map, backAll_unplaced hchildren hchildren']
    rfl

theorem backAll_unplaced {inherited : List Declaration} {start start' : ℕ} :
    ∀ {fs : List Fragment} {ns ms : List Node}, backAll inherited start fs = some ns →
      backAll inherited start' fs = some ms → ns.map Node.unplaced = ms.map Node.unplaced
  | [], _, _, h, h' => by rw [Option.some.inj (h.symm.trans h')]
  | f :: fs, _, _, h, h' => by
    obtain ⟨first, more, hfirst, hmore, rfl⟩ := backAll_cons_eq_some_iff.1 h
    obtain ⟨first', more', hfirst', hmore', rfl⟩ := backAll_cons_eq_some_iff.1 h'
    rw [List.map_append, List.map_append, back_unplaced hfirst hfirst',
      backAll_unplaced hmore hmore']

end

end Fragment

end XmlConformance.Xml
