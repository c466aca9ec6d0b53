import XmlConformance.Proofs.Rules.Reporting
import XmlConformance.Proofs.Xml.Parsing

/-!
# Proofs/Rules/Running — a run finds what the rules say

A run writes a report and reads it again, and whoever wants its findings takes them out of the
entries of the report. For a rule schema, a document and parameters that are made of characters of
XML, what comes out in the end is what the rules say about the document by themselves
(`RuleSet.findings_run`), and a run fails only if the evaluation of an expression does.

The characters matter. The value of an entity is not looked at when it is declared, so that an
attribute may hold a character that no document may hold. A report with such a character in it
cannot be read (`RuleSet.run_documentOfControl`).
-/

namespace XmlConformance.Rules

open Xml

/-- **A run finds what the rules say**: it fails where the evaluation of the rules fails, and
otherwise its report holds their findings. -/
theorem RuleSet.findings_run {schema d : Document} {rs : RuleSet}
    {parameters : List (String × String)} (hcompile : RuleSet.compile schema = .ok rs)
    (hschema : XmlText schema.text) (hd : XmlText d.text)
    (hparameters : ∀ p ∈ parameters, XmlText p.2) :
    (rs.run parameters d).map (fun report => findings (entries report)) =
      rs.findingsIn parameters d.root := by
  have hrs := RuleSet.clean_compile (clean_root hschema) hcompile
  have hroot := clean_root hd
  unfold RuleSet.run
  obtain ⟨e, houtcomes, hfound⟩ | ⟨outcomes, houtcomes, hfound, hclean⟩ :=
    RuleSet.findings_outcomes hrs hroot hparameters
  · rw [houtcomes, hfound]
    rfl
  · obtain ⟨report, hreport, hentries⟩ := entries_of_ofText_reportOf hrs.title hroot hclean
    rw [houtcomes, hfound, ok_bind, hreport, Except.map, hentries,
      findings_flatMap_entries]

/-! ## An attribute that says too much -/

/-- The document that a text is read as. -/
def documentOf (text : String) (h : (Node.ofText text).isSome = true) : Document where
  text := text
  base := none
  root := (Node.ofText text).get h
  wellFormed := (Option.some_get h).symm

/-- A rule schema whose only assertion fails at a root element `a`, with the value of `v` as its
message. -/
def schemaOfValues : Document :=
  documentOf ("<schema xmlns=\"http://purl.oclc.org/dsdl/schematron\"><pattern>" ++
    "<rule context=\"/a\"><assert test=\"false()\"><value-of select=\"@v\"/></assert></rule>" ++
    "</pattern></schema>") (by decide +kernel)

/-- What `schemaOfValues` finds. -/
def valueFinding (text : String) : Finding where
  isError := true
  context := some "/a"
  test := some "false()"
  location := some "/a[1]"
  text := text

/-- A document with a value that can be written. -/
def documentOfValue : Document :=
  documentOf "<a v=\"one  two\"/>" (by decide +kernel)

/-- A document with a value that is a control character, by way of an entity. -/
def documentOfControl : Document :=
  documentOf "<!DOCTYPE a [<!ENTITY e \"\u0001\">]><a v=\"&e;\"/>" (by decide +kernel)

theorem RuleSet.findings_run_documentOfValue : ∃ rs,
    RuleSet.compile schemaOfValues = .ok rs ∧ XmlText schemaOfValues.text ∧
      XmlText documentOfValue.text ∧ (∀ p ∈ [("limit", "2")], XmlText p.2) ∧
      (rs.run [("limit", "2")] documentOfValue).map (fun report => findings (entries report)) =
        .ok [valueFinding "one two"] := by
  have hfound : ((RuleSet.compile schemaOfValues).toOption.any fun rs =>
      (rs.findingsIn [("limit", "2")] documentOfValue.root).toOption.any
        (· == [valueFinding "one two"])) = true := by decide +kernel
  obtain ⟨rs, hcompile, hfound⟩ := exists_of_any_toOption hfound
  obtain ⟨found, hfindings, hfound⟩ := exists_of_any_toOption hfound
  have hschema : XmlText schemaOfValues.text := by decide +kernel
  have hd : XmlText documentOfValue.text := by decide +kernel
  have hparameters : ∀ p ∈ [("limit", "2")], XmlText p.2 := by decide
  refine ⟨rs, hcompile, hschema, hd, hparameters, ?_⟩
  rw [RuleSet.findings_run hcompile hschema hd hparameters, hfindings, eq_of_beq hfound]

/-- **A report that holds a control character cannot be read**, so the run fails although no
expression does. -/
theorem RuleSet.run_documentOfControl : ∃ rs, RuleSet.compile schemaOfValues = .ok rs ∧
    rs.findingsIn [] documentOfControl.root = .ok [valueFinding "\u0001"] ∧
      ∀ report, rs.run [] documentOfControl ≠ .ok report := by
  have hrun : ((RuleSet.compile schemaOfValues).toOption.any fun rs =>
      ((rs.findingsIn [] documentOfControl.root).toOption.any (· == [valueFinding "\u0001"])) &&
        (rs.outcomes [] documentOfControl.root).toOption.any fun outcomes =>
          (Node.ofChars (reportOf rs documentOfControl.root outcomes).chars).isNone) = true := by
    decide +kernel
  obtain ⟨rs, hcompile, hrun⟩ := exists_of_any_toOption hrun
  obtain ⟨hfound, houtcomes⟩ := Bool.and_eq_true_iff.1 hrun
  obtain ⟨found, hfindings, hfound⟩ := exists_of_any_toOption hfound
  obtain ⟨outcomes, houtcomes, hnone⟩ := exists_of_any_toOption houtcomes
  refine ⟨rs, hcompile, by rw [hfindings, eq_of_beq hfound], fun report hreport => ?_⟩
  rw [RuleSet.run, houtcomes, ok_bind] at hreport
  have hmalformed : Node.ofText (reportOf rs documentOfControl.root outcomes).render = none := by
    rw [Node.ofText, Fragment.toList_render]
    exact Option.isNone_iff_eq_none.1 hnone
  rw [ofText_of_ofText_eq_ok hreport] at hmalformed
  cases hmalformed

end XmlConformance.Rules
