/-!
# Token kinds

The kinds a fixed look-ahead can tell apart.  Reserved words are not among
them: `if`, `proc`, `var` are names here, and the grammar decides by place
whether a name is reserved, so that `echo if` keeps `if` as an argument.
Quoted content, heredoc bodies and regex bodies have no kind either: only
their openers do.
-/

namespace ShellAnalysis

inductive TokenKind where
  /-- Line feed. -/
  | newline
  /-- `#` at the start of a word, up to the end of the line. -/
  | comment
  -- command operators
  | pipe
  | pipePipe
  | amp
  | ampAmp
  | semi
  | semiSemi
  | less
  | greater
  | lessLess
  | lessLessLess
  | greaterGreater
  | greaterAmp
  | lessAmp
  | ampGreater
  | greaterPipe
  -- punctuation
  | parenOpen
  | parenClose
  | braceOpen
  | braceClose
  | bracketOpen
  | bracketClose
  | comma
  | dot
  | dotDot
  | dotDotLess
  | dotDotEqual
  | ellipsis
  | colon
  | question
  | atSign
  | backtick
  -- expression operators
  | equal
  | equalEqual
  | equalEqualEqual
  | bangEqual
  | bangEqualEqual
  | tildeEqualEqual
  | lessEqual
  | greaterEqual
  | bang
  | bangTilde
  | tilde
  | plus
  | plusPlus
  | plusEqual
  | minus
  | minusEqual
  | thinArrow
  | fatArrow
  | star
  | starStar
  | starEqual
  | slash
  | slashSlash
  | slashEqual
  | percent
  | caret
  -- sigils
  | dollar
  | dollarParen
  | dollarBrace
  | dollarBracket
  | atParen
  /-- `$name` -/
  | simpleVar
  /-- `$1`, `$?`, `$@`, `$#`, `$$`, `$!`, `$*`, `$-` -/
  | specialVar
  /-- `@name` -/
  | splice
  -- quote openers
  | singleQuote
  | doubleQuote
  | tripleSingleQuote
  | tripleDoubleQuote
  | dollarSingleQuote
  | dollarDoubleQuote
  | rawQuote
  | rawTripleQuote
  -- words and literals
  | ident
  | int
  | float
  /-- Backslash and one character. -/
  | escaped
  /-- A run of characters outside ASCII. -/
  | nonAscii
  /-- `#` glued to the text before it. -/
  | hash
  /-- One character of no other kind. -/
  | unknown
  /-- End of the text. -/
  | eof
  deriving Repr, DecidableEq, Inhabited

namespace TokenKind

/-- Operators that open a redirect. -/
def isRedirect : TokenKind → Bool
  | less | greater | lessLess | lessLessLess | greaterGreater
  | greaterAmp | lessAmp | ampGreater | greaterPipe => true
  | _ => false

/-- Kinds that end a shell word. -/
def endsWord : TokenKind → Bool
  | newline | eof | comment | pipe | pipePipe | amp | ampAmp | semi | semiSemi
  | parenOpen | parenClose => true
  | kind => kind.isRedirect

/-- Kinds that extend a word when glued to the token before them. -/
def continuesWord (kind : TokenKind) : Bool :=
  !kind.endsWord && kind != braceOpen && kind != braceClose

/-- Openers of quoted strings. -/
def isQuote : TokenKind → Bool
  | singleQuote | doubleQuote | tripleSingleQuote | tripleDoubleQuote
  | dollarSingleQuote | dollarDoubleQuote | rawQuote | rawTripleQuote => true
  | _ => false

/-- The tokens with one fixed spelling that start with this byte.  A spelling stands before every
shorter one that it extends, so the first one found in a text is the longest. -/
def spellings : UInt8 → List (String × TokenKind)
  | 0x0a => [("\n", newline)]
  | 0x21 => [("!==", bangEqualEqual), ("!=", bangEqual), ("!~", bangTilde), ("!", bang)]
  | 0x22 => [("\"\"\"", tripleDoubleQuote), ("\"", doubleQuote)]
  | 0x24 => [("$(", dollarParen), ("$\x7b", dollarBrace), ("$[", dollarBracket),
      ("$'", dollarSingleQuote), ("$\"", dollarDoubleQuote), ("$", dollar)]
  | 0x25 => [("%", percent)]
  | 0x26 => [("&&", ampAmp), ("&>", ampGreater), ("&", amp)]
  | 0x27 => [("'''", tripleSingleQuote), ("'", singleQuote)]
  | 0x28 => [("(", parenOpen)]
  | 0x29 => [(")", parenClose)]
  | 0x2a => [("**", starStar), ("*=", starEqual), ("*", star)]
  | 0x2b => [("++", plusPlus), ("+=", plusEqual), ("+", plus)]
  | 0x2c => [(",", comma)]
  | 0x2d => [("-=", minusEqual), ("->", thinArrow), ("-", minus)]
  | 0x2e => [("...", ellipsis), ("..<", dotDotLess), ("..=", dotDotEqual), ("..", dotDot),
      (".", dot)]
  | 0x2f => [("//", slashSlash), ("/=", slashEqual), ("/", slash)]
  | 0x3a => [(":", colon)]
  | 0x3b => [(";;", semiSemi), (";", semi)]
  | 0x3c => [("<<<", lessLessLess), ("<<", lessLess), ("<&", lessAmp), ("<=", lessEqual),
      ("<", less)]
  | 0x3d => [("===", equalEqualEqual), ("==", equalEqual), ("=>", fatArrow), ("=", equal)]
  | 0x3e => [(">>", greaterGreater), (">&", greaterAmp), (">|", greaterPipe),
      (">=", greaterEqual), (">", greater)]
  | 0x3f => [("?", question)]
  | 0x40 => [("@(", atParen), ("@", atSign)]
  | 0x5b => [("[", bracketOpen)]
  | 0x5d => [("]", bracketClose)]
  | 0x5e => [("^", caret)]
  | 0x60 => [("\x60", backtick)]
  | 0x72 => [("r'''", rawTripleQuote), ("r'", rawQuote)]
  | 0x7b => [("\x7b", braceOpen)]
  | 0x7c => [("||", pipePipe), ("|", pipe)]
  | 0x7d => [("\x7d", braceClose)]
  | 0x7e => [("~==", tildeEqualEqual), ("~", tilde)]
  | _ => []

end TokenKind

end ShellAnalysis
