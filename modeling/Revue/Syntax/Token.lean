import Revue.Text.Span

/-!
# Tokens

The words, marks and literals that a source is read as. A word that starts with an escape is never
a keyword. Where a mark depends on what surrounds it (a slash that may open a regular
expression, a greater-than sign that may close a list of types), the plainest reading is the token,
and the grammar asks for another.
-/

namespace Revue.Syntax
open Text

/-- Words with a meaning of their own somewhere in the grammar. -/
inductive Keyword where
  | kAbstract | kAccessor | kAny | kAs | kAsserts | kAssert | kAsync | kAwait | kBigint | kBoolean
  | kBreak | kCase | kCatch | kClass | kConst | kContinue | kDebugger | kDeclare | kDefault
  | kDefer | kDelete | kDo | kElse | kEnum | kExport | kExtends | kFalse | kFinally | kFor | kFrom
  | kFunction | kGet | kGlobal | kIf | kImplements | kImport | kIn | kInfer | kInstanceof
  | kInterface | kIntrinsic | kIs | kKeyof | kLet | kModule | kNamespace | kNever | kNew | kNull
  | kNumber | kObject | kOf | kOut | kOverride | kPackage | kPrivate | kProtected | kPublic
  | kReadonly | kRequire | kReturn | kSatisfies | kSet | kSource | kStatic | kString | kSuper
  | kSwitch | kSymbol | kTarget | kThis | kThrow | kTrue | kTry | kType | kTypeof | kUndefined
  | kUnique | kUnknown | kUsing | kVar | kVoid | kWhile | kWith | kYield
deriving DecidableEq, Repr

namespace Keyword

def table : List (String × Keyword) :=
  [("abstract", kAbstract), ("accessor", kAccessor), ("any", kAny), ("as", kAs),
    ("asserts", kAsserts), ("assert", kAssert), ("async", kAsync), ("await", kAwait),
    ("bigint", kBigint), ("boolean", kBoolean), ("break", kBreak), ("case", kCase),
    ("catch", kCatch), ("class", kClass), ("const", kConst), ("continue", kContinue),
    ("debugger", kDebugger), ("declare", kDeclare), ("default", kDefault), ("defer", kDefer),
    ("delete", kDelete), ("do", kDo), ("else", kElse), ("enum", kEnum), ("export", kExport),
    ("extends", kExtends), ("false", kFalse), ("finally", kFinally), ("for", kFor),
    ("from", kFrom), ("function", kFunction), ("get", kGet), ("global", kGlobal), ("if", kIf),
    ("implements", kImplements), ("import", kImport), ("in", kIn), ("infer", kInfer),
    ("instanceof", kInstanceof), ("interface", kInterface), ("intrinsic", kIntrinsic), ("is", kIs),
    ("keyof", kKeyof), ("let", kLet), ("module", kModule), ("namespace", kNamespace),
    ("never", kNever), ("new", kNew), ("null", kNull), ("number", kNumber), ("object", kObject),
    ("of", kOf), ("out", kOut), ("override", kOverride), ("package", kPackage),
    ("private", kPrivate), ("protected", kProtected), ("public", kPublic),
    ("readonly", kReadonly), ("require", kRequire), ("return", kReturn),
    ("satisfies", kSatisfies), ("set", kSet), ("source", kSource), ("static", kStatic),
    ("string", kString), ("super", kSuper), ("switch", kSwitch), ("symbol", kSymbol),
    ("target", kTarget), ("this", kThis), ("throw", kThrow), ("true", kTrue), ("try", kTry),
    ("type", kType), ("typeof", kTypeof), ("undefined", kUndefined), ("unique", kUnique),
    ("unknown", kUnknown), ("using", kUsing), ("var", kVar), ("void", kVoid), ("while", kWhile),
    ("with", kWith), ("yield", kYield)]

def ofName? (name : String) : Option Keyword :=
  (table.find? (·.1 == name)).map (·.2)

def isReserved : Keyword → Bool
  | kBreak | kCase | kCatch | kClass | kConst | kContinue | kDebugger | kDefault | kDelete | kDo
  | kElse | kExport | kExtends | kFalse | kFinally | kFor | kFunction | kIf | kImport | kIn
  | kInstanceof | kNew | kNull | kReturn | kSuper | kSwitch | kThis | kThrow | kTrue | kTry
  | kTypeof | kVar | kVoid | kWhile | kWith => true
  | _ => false

/-- Words that refer to no variable in module code, beside the reserved ones. -/
def isReservedInModules : Keyword → Bool
  | kAwait | kEnum | kImplements | kInterface | kLet | kPackage | kPrivate | kProtected | kPublic
  | kYield => true
  | _ => false

/-- Words that are read as names and are a mistake as such in module code. -/
def isMisused : Keyword → Bool
  | kImplements | kInterface | kLet | kPackage | kPrivate | kProtected | kPublic | kStatic
  | kYield => true
  | _ => false

/-- Words that are read as keywords wherever they stand. -/
def isFixed (k : Keyword) : Bool :=
  k.isReserved || k == kLet || k == kYield || k == kAwait

end Keyword

/-- Punctuation marks and operators. -/
inductive Mark where
  | lbrace | rbrace | lparen | rparen | lbracket | rbracket | dot | dots | semi | comma | colon
  | question | arrow | atSign
  | lt | gt | le | ge | eqEq | notEq | eqEqEq | notEqEq
  | plus | minus | star | slash | percent | starStar | shl | shr | ushr | amp | bar | caret
  | ampAmp | barBar | nullish
  | plusPlus | minusMinus | bang | tilde
  | eq | plusEq | minusEq | starEq | slashEq | percentEq | starStarEq | shlEq | shrEq | ushrEq
  | ampEq | barEq | caretEq | ampAmpEq | barBarEq | nullishEq
deriving DecidableEq, Repr

namespace Mark

/-- The marks with their spellings, longer ones before their beginnings. Of the marks that start
with a greater-than sign only that sign is here: the longer ones are read on request. -/
def table : List (String × Mark) :=
  [("**=", starStarEq), ("<<=", shlEq), ("...", dots), ("===", eqEqEq), ("!==", notEqEq),
    ("&&=", ampAmpEq), ("||=", barBarEq), ("??=", nullishEq),
    ("=>", arrow), ("==", eqEq), ("!=", notEq), ("<=", le), ("<<", shl), ("**", starStar),
    ("++", plusPlus), ("--", minusMinus), ("&&", ampAmp), ("||", barBar), ("??", nullish),
    ("+=", plusEq), ("-=", minusEq), ("*=", starEq), ("/=", slashEq), ("%=", percentEq),
    ("&=", ampEq), ("|=", barEq), ("^=", caretEq),
    ("\x7b", lbrace), ("\x7d", rbrace), ("(", lparen), (")", rparen), ("[", lbracket),
    ("]", rbracket), (".", dot), (";", semi), (",", comma), (":", colon), ("?", question),
    ("@", atSign), ("<", lt), (">", gt), ("+", plus), ("-", minus), ("*", star), ("/", slash),
    ("%", percent), ("&", amp), ("|", bar), ("^", caret), ("!", bang), ("~", tilde), ("=", eq)]

/-- The marks that start with a greater-than sign, longer ones first. -/
def greaterTable : List (String × Mark) :=
  [(">>>=", ushrEq), (">>>", ushr), (">>=", shrEq), (">>", shr), (">=", ge), (">", gt)]

def text (m : Mark) : String :=
  (((table ++ greaterTable).find? (·.2 = m)).map (·.1)).getD ""

def precedence : Mark → Nat
  | nullish | barBar => 1
  | ampAmp => 2
  | bar => 3
  | caret => 4
  | amp => 5
  | eqEq | notEq | eqEqEq | notEqEq => 6
  | lt | le | gt | ge => 7
  | shl | shr | ushr => 8
  | plus | minus => 9
  | star | slash | percent => 10
  | starStar => 11
  | _ => 0

def isBinary (m : Mark) : Bool :=
  m.precedence != 0

def isAssignment : Mark → Bool
  | eq | plusEq | minusEq | starEq | slashEq | percentEq | starStarEq | shlEq | shrEq | ushrEq
  | ampEq | barEq | caretEq | ampAmpEq | barBarEq | nullishEq => true
  | _ => false

end Mark

/-- What a token is. -/
inductive Lexeme where
  /-- Nothing yet, before the first token. -/
  | start
  | eof
  /-- Text that is no token. -/
  | bad
  | word (name : String) (keyword : Option Keyword)
  | privateName (name : String)
  | number (spelling : String)
  | bigInteger
  | string (value : String)
  | mark (m : Mark)
  /-- A piece of a template: whether a substitution follows it, and whether its escapes are
  valid. -/
  | template (more valid : Bool)
  | regex
  | markupText
  /-- A name in markup, which may hold hyphens. -/
  | markupName (name : String)
deriving DecidableEq, Repr

namespace Lexeme

def ownsLineComment : Lexeme → Bool
  | mark m => !m.isBinary
  | _ => true

def ownsBlockComment : Lexeme → Bool
  | mark .semi | mark .lbrace | mark .rbrace => true
  | number _ | bigInteger | string _ | regex | markupText => true
  | template more _ => more
  | word _ (some k) => !k.isFixed
  | word _ none => true
  | _ => false

end Lexeme

structure Token where
  lexeme : Lexeme
  span : Span
  breakBefore : Bool
deriving Repr

end Revue.Syntax
