import Mathlib.Tactic.Common

/-
  Element trees and their spellings as markup.

  A spelling is a list of tokens.  Comments, character data sections
  and instructions end at their first closing mark; a value in quotes
  holds neither its quote nor the sign that opens a tag.
-/

namespace Borzoi

namespace Markup

inductive Element
  | element (name : List Char) (children : List Element)

mutual

def Element.depth
    (root : Element) :
    Nat :=
  match root with
  | .element _ children => depths children + 1

/- The depth of the deepest of some elements. -/
def depths
    (elements : List Element) :
    Nat :=
  match elements with
  | [] => 0
  | element :: rest => max element.depth (depths rest)

end

structure Attribute where
  space : List Char
  name : List Char
  before : List Char
  after : List Char
  quote : Char
  value : List Char

namespace Attribute

def spell
    (attr : Attribute) :
    List Char :=
  attr.space ++ attr.name ++ attr.before ++
    '=' :: attr.after ++
      attr.quote :: attr.value ++ [attr.quote]

end Attribute

inductive Token
  | text (body : List Char)
  | comment (body : List Char)
  | charData (body : List Char)
  | instruction (body : List Char)
  | startTag
      (name : List Char)
      (attributes : List Attribute)
      (space : List Char)
  | emptyTag
      (name : List Char)
      (attributes : List Attribute)
      (space : List Char)
  | endTag (name : List Char) (space : List Char)

def commentOpen :
    List Char :=
  ['<', '!', '-', '-']

def commentClose :
    List Char :=
  ['-', '-', '>']

def charDataOpen :
    List Char :=
  ['<', '!', '[', 'C', 'D', 'A', 'T', 'A', '[']

def charDataClose :
    List Char :=
  [']', ']', '>']

def instructionOpen :
    List Char :=
  ['<', '?']

def instructionClose :
    List Char :=
  ['?', '>']

def endTagOpen :
    List Char :=
  ['<', '/']

namespace Token

/- What a tag holds between its signs. -/
def tagBody
    (name : List Char)
    (attributes : List Attribute)
    (space : List Char) :
    List Char :=
  name ++ (attributes.flatMap Attribute.spell ++ space)

def spell
    (token : Token) :
    List Char :=
  match token with
  | .text body => body
  | .comment body => commentOpen ++ (body ++ commentClose)
  | .charData body => charDataOpen ++ (body ++ charDataClose)
  | .instruction body => instructionOpen ++ (body ++ instructionClose)
  | .startTag name attributes space =>
      '<' :: (tagBody name attributes space ++ ['>'])
  | .emptyTag name attributes space =>
      '<' :: (tagBody name attributes space ++ ['/', '>'])
  | .endTag name space => endTagOpen ++ (name ++ space ++ ['>'])

end Token

def spell
    (tokens : List Token) :
    List Char :=
  tokens.flatMap Token.spell

@[simp]
theorem spell_nil :
    spell [] = [] :=
  rfl

@[simp]
theorem spell_cons
    (token : Token)
    (tokens : List Token) :
    spell (token :: tokens) = token.spell ++ spell tokens :=
  List.flatMap_cons

def isSpace
    (c : Char) :
    Bool :=
  c ∈ [' ', '\t', '\r', '\n']

/- A sign that no name holds. -/
def isSign
    (c : Char) :
    Bool :=
  c ∈ ['<', '>', '/', '=', '"', '\'', '!', '?', '&']

def IsSpace
    (text : List Char) :
    Prop :=
  ∀ c ∈ text, isSpace c = true

def IsName
    (name : List Char) :
    Prop :=
  name ≠ [] ∧ ∀ c ∈ name, isSpace c = false ∧ isSign c = false

structure Attribute.WellFormed
    (attr : Attribute) :
    Prop where
  apart : attr.space ≠ []
  space : IsSpace attr.space
  name : IsName attr.name
  before : IsSpace attr.before
  after : IsSpace attr.after
  quote : attr.quote = '"' ∨ attr.quote = '\''
  unquoted : attr.quote ∉ attr.value
  unopened : '<' ∉ attr.value

structure WellFormedTag
    (name : List Char)
    (attributes : List Attribute)
    (space : List Char) :
    Prop where
  name : IsName name
  attributes : ∀ attr ∈ attributes, attr.WellFormed
  space : IsSpace space

def Token.WellFormed
    (token : Token) :
    Prop :=
  match token with
  | .text body => '<' ∉ body
  | .comment body => ¬commentClose <:+: body
  | .charData body => ¬charDataClose <:+: body
  | .instruction body => ¬instructionClose <:+: body
  | .startTag name attributes space => WellFormedTag name attributes space
  | .emptyTag name attributes space => WellFormedTag name attributes space
  | .endTag name space => IsName name ∧ IsSpace space

/- A token beside the elements. -/
def Token.IsMisc
    (token : Token) :
    Prop :=
  match token with
  | .text _ | .comment _ | .charData _ | .instruction _ => True
  | .startTag _ _ _ | .emptyTag _ _ _ | .endTag _ _ => False

/- The tokens spell the elements in order, among other tokens. -/
inductive Content :
    List Element → List Token → Prop
  | nil :
      Content [] []
  | misc
      {elements : List Element}
      {token : Token}
      {tokens : List Token}
      (hMisc : token.IsMisc)
      (hRest : Content elements tokens) :
      Content elements (token :: tokens)
  | paired
      {name : List Char}
      {children elements : List Element}
      {inner tokens : List Token}
      (attributes : List Attribute)
      (space space' : List Char)
      (hInner : Content children inner)
      (hRest : Content elements tokens) :
      Content (.element name children :: elements)
        (.startTag name attributes space ::
          (inner ++ .endTag name space' :: tokens))
  | empty
      {name : List Char}
      {elements : List Element}
      {tokens : List Token}
      (attributes : List Attribute)
      (space : List Char)
      (hRest : Content elements tokens) :
      Content (.element name [] :: elements)
        (.emptyTag name attributes space :: tokens)

/- A document around its root element. -/
structure Document
    (root : Element)
    (tokens : List Token) :
    Prop where
  content : Content [root] tokens
  wellFormed : ∀ token ∈ tokens, token.WellFormed

namespace Token

/- The elements that a token opens. -/
def opened
    (token : Token) :
    Nat :=
  match token with
  | .startTag _ _ _ | .emptyTag _ _ _ => 1
  | _ => 0

/- The elements that are closed behind a token. -/
def closed
    (token : Token) :
    Nat :=
  match token with
  | .emptyTag _ _ _ | .endTag _ _ => 1
  | _ => 0

end Token

/-
  The most elements open at one time, with some open before.  An empty
  element is open in its tag.
-/
def openMax
    (before : Nat)
    (tokens : List Token) :
    Nat :=
  match tokens with
  | [] => before
  | token :: rest =>
      max (before + token.opened)
        (openMax (before + token.opened - token.closed) rest)

theorem le_openMax
    (before : Nat)
    (tokens : List Token) :
    before ≤ openMax before tokens := by
  cases tokens with
  | nil => exact Nat.le_refl _
  | cons token rest =>
      rw [openMax]
      exact Nat.le_trans (Nat.le_add_right _ _) (Nat.le_max_left _ _)

theorem Token.IsMisc.opened_closed
    {token : Token}
    (hMisc : token.IsMisc) :
    token.opened = 0 ∧ token.closed = 0 := by
  cases token <;> first | exact ⟨rfl, rfl⟩ | exact hMisc.elim

variable {tokens : List Token}

/- At most as many are open as the elements are deep. -/
theorem Content.openMax_append
    {elements : List Element}
    (hContent : Content elements tokens)
    (before : Nat)
    (rest : List Token) :
    openMax before (tokens ++ rest) =
      max (before + depths elements) (openMax before rest) := by
  induction hContent generalizing before rest with
  | nil =>
      have hLe := le_openMax before rest
      rw [List.nil_append, depths]
      omega
  | misc hMisc hRest ih =>
      rcases hMisc.opened_closed with ⟨hOpened, hClosed⟩
      rw [List.cons_append, openMax, hOpened, hClosed, Nat.add_zero,
        Nat.sub_zero, ih]
      omega
  | paired attributes space space' hInner hRest ihInner ihRest =>
      rw [List.cons_append, List.append_assoc, List.cons_append, openMax]
      simp only [Token.opened, Token.closed, Nat.sub_zero]
      rw [ihInner, openMax]
      simp only [Token.opened, Token.closed, Nat.add_zero,
        Nat.add_sub_cancel]
      rw [ihRest, depths, Element.depth]
      omega
  | empty attributes space hRest ih =>
      rw [List.cons_append, openMax]
      simp only [Token.opened, Token.closed, Nat.add_sub_cancel]
      rw [ih, depths, Element.depth, depths]
      omega

theorem Content.openMax_eq
    {root : Element}
    (hContent : Content [root] tokens) :
    openMax 0 tokens = root.depth := by
  have hMax := hContent.openMax_append 0 []
  rw [List.append_nil, depths, depths, openMax] at hMax
  omega

end Markup

end Borzoi
