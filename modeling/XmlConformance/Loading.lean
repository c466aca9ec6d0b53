import XmlConformance.Xml.Document

/-!
# Loading — computations that load documents

A library finds the documents at URLs and paths. A computation that loads documents has an outcome,
and keeps a list of what it requested; nothing that it does depends on that list. So `outcome` is
all that matters to what a computation means, and it goes through `bind` as in `Except`
(`outcome_bind`).
-/

namespace XmlConformance

/-- Where documents are found. -/
structure Library where
  atUrl : Url → Except Failure Document
  atPath : String → Except Failure Document

/-- What a computation may request. -/
inductive Request where
  | document (source : Source)
  /-- To compile a grammar. -/
  | grammar
  /-- To compile a rule schema. -/
  | rules
deriving DecidableEq, Repr, Inhabited

/-- The result of a computation, and what it requested, in order. -/
structure Tracked (ε α : Type) where
  outcome : Except ε α
  requests : List Request

/-- The result of a computation that loads documents. -/
abbrev Loading := Tracked Failure

namespace Tracked

variable {ε α β : Type}

/-- A result for which nothing was requested. -/
def of (x : Except ε α) : Tracked ε α := ⟨x, []⟩

def pure (a : α) : Tracked ε α := of (.ok a)

def bind (x : Tracked ε α) (f : α → Tracked ε β) : Tracked ε β :=
  match x.outcome with
  | .ok a => ⟨(f a).outcome, x.requests ++ (f a).requests⟩
  | .error e => ⟨.error e, x.requests⟩

instance : Monad (Tracked ε) where
  pure := Tracked.pure
  bind := Tracked.bind

def fail (e : ε) : Tracked ε α := of (.error e)

/-- The same result with another error. -/
def mapError {δ : Type} (f : ε → δ) (x : Tracked ε α) : Tracked δ α :=
  ⟨x.outcome.mapError f, x.requests⟩

/-- Puts a request in front. -/
def asking (r : Request) (x : Tracked ε α) : Tracked ε α :=
  ⟨x.outcome, r :: x.requests⟩

@[simp] theorem outcome_of (x : Except ε α) : (of x).outcome = x := rfl

@[simp] theorem outcome_pure (a : α) : (Pure.pure a : Tracked ε α).outcome = .ok a := rfl

@[simp] theorem outcome_bind (x : Tracked ε α) (f : α → Tracked ε β) :
    (x >>= f).outcome = x.outcome >>= fun a => (f a).outcome := by
  change (Tracked.bind x f).outcome = _
  unfold Tracked.bind
  cases x.outcome <;> rfl

@[simp] theorem outcome_mapError {δ : Type} (f : ε → δ) (x : Tracked ε α) :
    (x.mapError f).outcome = x.outcome.mapError f := rfl

@[simp] theorem outcome_asking (r : Request) (x : Tracked ε α) :
    (x.asking r).outcome = x.outcome := rfl

end Tracked

/-- Loads a document. -/
def Library.load (library : Library) (source : Source) : Loading Document :=
  let found :=
    match source with
    | .url location => library.atUrl location
    | .path name => library.atPath name
    | .text text base => Document.ofText text base
  (Tracked.of found).asking (.document source)

end XmlConformance
