import GrammarFuzz.Grammar.Basic

/-!
# A catalogue of grammars

Some grammars to try things out with.  Each has a name by which it can be asked for.
-/

namespace GrammarFuzz

def eachOf (characters : Word) : List Word :=
  characters.map fun c => [c]

def eachBetween (first last : Char) : List Word :=
  ((List.range' first.toNat (last.toNat + 1 - first.toNat)).filter fun n => n.isValidChar).map
    fun n => [Char.ofNat n]

namespace Catalogue

def rule (symbol : String) (texts : List String) : Word × List Expansion :=
  (Word.ofString symbol, texts.map fun text => ⟨Word.ofString text, .empty⟩)

def charRule (symbol characters : String) : Word × List Expansion :=
  (Word.ofString symbol, (eachOf (Word.ofString characters)).map fun text => ⟨text, .empty⟩)

def digit : Grammar := .ofRules [
  charRule "<start>" "0123456789"]

def expr : Grammar := .ofRules [
  rule "<start>" ["<expr>"],
  rule "<expr>" ["<term> + <expr>", "<term> - <expr>", "<term>"],
  rule "<term>" ["<factor> * <term>", "<factor> / <term>", "<factor>"],
  rule "<factor>" ["+<factor>", "-<factor>", "(<expr>)", "<integer>.<integer>", "<integer>"],
  rule "<integer>" ["<digit><integer>", "<digit>"],
  charRule "<digit>" "0123456789"]

def exprEbnf : Grammar := .ofRules [
  rule "<start>" ["<expr>"],
  rule "<expr>" ["<term> + <expr>", "<term> - <expr>", "<term>"],
  rule "<term>" ["<factor> * <term>", "<factor> / <term>", "<factor>"],
  rule "<factor>" ["<sign>?<factor>", "(<expr>)", "<integer>(.<integer>)?"],
  rule "<sign>" ["+", "-"],
  rule "<integer>" ["<digit>+"],
  charRule "<digit>" "0123456789"]

def url : Grammar := .ofRules [
  rule "<start>" ["<url>"],
  rule "<url>" ["<scheme>://<authority><path><query>"],
  rule "<scheme>" ["http", "https", "ftp", "ftps"],
  rule "<authority>" ["<host>", "<host>:<port>", "<userinfo>@<host>", "<userinfo>@<host>:<port>"],
  rule "<host>" ["cispa.saarland", "www.google.com", "fuzzingbook.com"],
  rule "<port>" ["80", "8080", "<nat>"],
  rule "<nat>" ["<digit>", "<digit><digit>"],
  charRule "<digit>" "0123456789",
  rule "<userinfo>" ["user:password"],
  rule "<path>" ["", "/", "/<id>"],
  rule "<id>" ["abc", "def", "x<digit><digit>"],
  rule "<query>" ["", "?<params>"],
  rule "<params>" ["<param>", "<param>&<params>"],
  rule "<param>" ["<id>=<id>", "<id>=<nat>"]]

def title : Grammar := .ofRules [
  rule "<start>" ["<title>"],
  rule "<title>" ["<topic>: <subtopic>"],
  rule "<topic>" ["Generating Software Tests", "<fuzzing-prefix>Fuzzing", "The Fuzzing Book"],
  rule "<fuzzing-prefix>" ["", "The Art of ", "The Joy of "],
  rule "<subtopic>" [
    "<subtopic-main>",
    "<subtopic-prefix><subtopic-main>",
    "<subtopic-main><subtopic-suffix>"],
  rule "<subtopic-main>" [
    "Breaking Software",
    "Generating Software Tests",
    "Principles, Techniques and Tools"],
  rule "<subtopic-prefix>" ["", "Tools and Techniques for "],
  rule "<subtopic-suffix>" [
    " for <reader-property> and <reader-property>",
    " for <software-property> and <software-property>"],
  rule "<reader-property>" ["Fun", "Profit"],
  rule "<software-property>" ["Robustness", "Reliability", "Security"]]

def cgi : Grammar := .ofRules [
  rule "<start>" ["<string>"],
  rule "<string>" ["<letter>", "<letter><string>"],
  rule "<letter>" ["<plus>", "<percent>", "<other>"],
  rule "<plus>" ["+"],
  rule "<percent>" ["%<hexdigit><hexdigit>"],
  charRule "<hexdigit>" "0123456789abcdef",
  charRule "<other>" "012345abcde-_"]

def all : List (String × Grammar) :=
  [("digit", digit), ("expr", expr), ("expr-ebnf", exprEbnf), ("url", url), ("title", title),
    ("cgi", cgi)]

def names : List String :=
  all.map Prod.fst

def find? (name : String) : Option Grammar :=
  all.lookup name

end Catalogue
end GrammarFuzz
