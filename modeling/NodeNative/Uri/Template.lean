import NodeNative.Lib.RegexSyntax
import NodeNative.Http.Incoming

/-!
# URI templates

A template is text with parameters, `:name`, `{name}` or `{name:format}`, where a format is
itself a named template. `UriTemplate.parse` makes two regular expressions of it, as strings: one that
matches, and one with a group around each parameter, from which `extract` takes the values.

The expressions of `Regex.cpp` are those of `NodeNative.Lib.Regex`, which finds the matches in the
order of ECMAScript: `Regex.hpp` says that the libraries it wraps follow these rules.
-/

namespace NodeNative.Uri

open Regex Http

/-! ### Matching -/

/-- Source: `Regex.hpp:43`. -/
inductive Anchor
  | ANCHOR_BOTH
  | ANCHOR_START
  | UNANCHORED
  deriving DecidableEq

/-- Source: `Regex.cpp:134` `RegEx_STD::match`. -/
def matchRegex (r : Re) (text : Str) : Anchor → Option Match
  | .ANCHOR_BOTH => r.matchWhole text
  | .ANCHOR_START => r.matchStart text
  | .UNANCHORED => r.search text

/-! ### Reading a template -/

def isStart : CharClass := ⟨false, [('\x7b', '\x7b'), (':', ':')]⟩

/-- What a name begins with. -/
def isNameStart : CharClass := ⟨false, [('a', 'z'), ('A', 'Z'), ('_', '_')]⟩

def isSegment : CharClass := ⟨true, [('/', '/')]⟩

def isInBraces : CharClass := ⟨true, [('\x7d', '\x7d')]⟩

def isFormatName : CharClass := ⟨true, [(':', ':')]⟩

def reParamStart : Re := .group 1 (.char isStart)

def reParamSimpleEnd : Re :=
  .seq .bol (.group 1 (.seq (.char isNameStart) (.star true (.char isSegment))))

def reParamEnd : Re :=
  .seq (.seq .bol (.group 1 (.seq (.char isNameStart) (.star true (.char isInBraces)))))
    (.char (literal '\x7d'))

def reParamNameEnd : Re :=
  .seq (.group 1 (.seq (.char isFormatName) (.star true (.char isFormatName)))) (.char (literal ':'))

/-- The patterns of `UriTemplate.cpp:23-26`. -/
example : parse "([\\\x7b\\:])".toList = some reParamStart ∧
    parse "^([a-zA-Z_][^/]*)".toList = some reParamSimpleEnd ∧
    parse "^([a-zA-Z_][^\\\x7d]*)\\\x7d".toList = some reParamEnd ∧
    parse "([^\\:]+)\\:".toList = some reParamNameEnd := by
  decide

/-- What `getNextParameter` returns: the text before a parameter, its name and its format. -/
structure Parameter where
  iText : Str
  iName : Str
  iFormat : Str
  deriving DecidableEq

/-- The loop of `getNextParameter`, with the text that it has passed and the text that is left. The
outer `none` says that the rounds are used up, the inner one that there is no further parameter.
Source: `UriTemplate.cpp:34-75`. -/
def getNextParameterLoop : Nat → Str → Str → Option (Option (Parameter × Str))
  | 0, _, _ => none
  | n + 1, iText, currBegin =>
    match matchRegex reParamStart currBegin .UNANCHORED with
    | none => some none
    | some results =>
      let before := currBegin.take results.position
      let currBegin := currBegin.drop results.position
      let behind := currBegin.drop results.length
      if results.str 1 = [':'] then
        if results.position = 0 ∨ before.getLast? = some '/' then
          match matchRegex reParamSimpleEnd behind .UNANCHORED with
          | none => some none
          | some results =>
            some (some (⟨iText ++ before, results.str 1, []⟩, behind.drop results.length))
        else getNextParameterLoop n (iText ++ before ++ currBegin.take results.length) behind
      else
        match matchRegex reParamEnd behind .UNANCHORED with
        | some results2 =>
          let nameAndFormat := results2.str 1
          let rest := behind.drop results2.length
          match matchRegex reParamNameEnd nameAndFormat .UNANCHORED with
          | some results2 =>
            some (some (⟨iText ++ before, results2.str 1,
              nameAndFormat.drop (results2.position + results2.length)⟩, rest))
          | none => some (some (⟨iText ++ before, nameAndFormat, []⟩, rest))
        | none => getNextParameterLoop n (iText ++ before ++ currBegin.take results.length) behind

/-- Source: `UriTemplate.cpp:16`. Each round passes a character. -/
def getNextParameter (iBegin : Str) : Option (Parameter × Str) :=
  (getNextParameterLoop (iBegin.length + 1) [] iBegin).getD none

/-- `true` for `(test|other)`, but `false` for `(?:test|other)`. -/
def reCapturingGroup : Re :=
  .seq (.seq (.seq (.char (literal '(')) (.char ⟨true, [('?', '?')]⟩))
    (quantify true (.char ⟨true, [(')', ')')]⟩) 1 none)) (.char (literal ')'))

example : parse "\\([^\\?][^\\)]+\\)".toList = some reCapturingGroup := by decide

/-- Source: `UriTemplate.cpp:144`. -/
def containCapturingGroup (iPattern : Str) : Bool :=
  (matchRegex reCapturingGroup iPattern .UNANCHORED).isSome

/-! ### Templates and formats -/

/-- Source: `UriTemplate.hpp:15`. -/
structure UriTemplate where
  template : Str
  matchPattern : Str
  extractPattern : Str
  params : List Str
  formatNames : List Str
  deriving DecidableEq

/-- Source: `UriTemplateFormat.hpp:16`. -/
structure UriTemplateFormat where
  name : Str
  template : UriTemplate
  deriving DecidableEq

/-- The table of `UriTemplateFormat::GetGlobalFormats`. -/
abbrev Formats := List (Str × UriTemplateFormat)

/-- Source: `UriTemplate.hpp:55`. -/
def UriTemplate.getPattern (t : UriTemplate) (iForExtraction iAddEndAnchor : Bool) : Str :=
  (if iForExtraction then t.extractPattern else t.matchPattern) ++ if iAddEndAnchor then ['$'] else []

/-- Source: `UriTemplateFormat.cpp:18`. -/
def UriTemplateFormat.getPattern (f : UriTemplateFormat) (iForExtraction : Bool) : Str :=
  if iForExtraction then ['('] ++ f.template.getPattern true false ++ [')']
  else f.template.getPattern false false

/-- Source: `UriTemplateFormat.hpp:41`. -/
def UriTemplateFormat.isRegExOnly (f : UriTemplateFormat) : Bool := f.template.params.length == 0

def simplePattern : Str := "[^/]+".toList

/-- Source: `UriTemplate.cpp:10`. -/
def simpleFormat : UriTemplateFormat where
  name := "simpleFormat".toList
  template := ⟨simplePattern, simplePattern, simplePattern, [], []⟩

/-- Source: `UriTemplateFormat.cpp:34`. -/
def getGlobalFormat (formats : Formats) (iFormatName : Str) : Except String UriTemplateFormat :=
  match formats.lookup iFormatName with
  | none => .error "0"
  | some f => .ok f

/-- The format of a parameter. -/
def formatOf (formats : Formats) (formatName : Str) : Except String UriTemplateFormat :=
  if formatName.isEmpty then .ok simpleFormat else getGlobalFormat formats formatName

/-- The loop of `UriTemplate::parse`, which ends with the assertion that fails, if any. `none` says
that the rounds are used up. Source: `UriTemplate.cpp:188-209`. -/
def parseLoop (formats : Formats) : Nat → UriTemplate → Str → Option (Except String UriTemplate)
  | 0, _, _ => none
  | n + 1, t, iBegin =>
    match getNextParameter iBegin with
    | none => some (.ok { t with
        matchPattern := t.matchPattern ++ iBegin
        extractPattern := t.extractPattern ++ iBegin })
    | some (p, rest) =>
      if p.iName ∈ t.params then some (.error "0")
      else
        match formatOf formats p.iFormat with
        | .error condition => some (.error condition)
        | .ok globalFormat =>
          parseLoop formats n { t with
            params := t.params ++ [p.iName]
            formatNames := t.formatNames ++ [p.iFormat]
            matchPattern := t.matchPattern ++ (p.iText ++ globalFormat.getPattern false)
            extractPattern := t.extractPattern ++ (p.iText ++ globalFormat.getPattern true) } rest

/-- Source: `UriTemplate.cpp:169`. -/
def UriTemplate.parse (formats : Formats) (iTemplate : Str) : Except String UriTemplate :=
  if containCapturingGroup iTemplate then .error "!ContainCapturingGroup(_template)"
  else (parseLoop formats (iTemplate.length + 1) ⟨iTemplate, [], [], [], []⟩ iTemplate).getD
    (.error "")

/-- Source: `UriTemplateFormat.cpp:48`. -/
def addGlobalFormat (formats : Formats) (iFormatName iTemplate : Str) : Except String Formats :=
  match formats.lookup iFormatName with
  | some _ => .error "0"
  | none =>
    (UriTemplate.parse formats iTemplate).map fun template =>
      (iFormatName, ⟨iFormatName, template⟩) :: formats

/-- The constructor of `simpleFormat`. -/
theorem parse_simplePattern (formats : Formats) :
    UriTemplate.parse formats simplePattern = .ok simpleFormat.template := by
  rfl

end NodeNative.Uri
