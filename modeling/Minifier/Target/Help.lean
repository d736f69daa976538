import Minifier.Target.Shell

/-!
A reference of the command line.
-/

namespace Minifier.Target

/-- The flags, what they do, and an example for each. -/
def flagTable : List (String × String × String) :=
  [("-i, --input <PATH>", "File or directory to minify", "--input \"src/app.js\""),
   ("-o, --output <PATH>", "Output file, or directory for directory input", "--output \"dist\""),
   ("-l, --level <LEVEL>", "light | moderate | aggressive (default: moderate)", "--level aggressive"),
   ("-L, --language <LANG>", "Override language detection", "--language css"),
   ("-r, --recursive", "Descend into subdirectories", "--input \"src\" --recursive"),
   ("-w, --watch", "Re-minify when sources change", "--input \"src\" --watch"),
   ("-c, --config <FILE>", "Read options from a JSON config file",
     "--config codeshrink.config.json"),
   ("    --keep-comments", "Do not strip comments", "--keep-comments"),
   ("    --keep-whitespace", "Do not collapse whitespace", "--keep-whitespace"),
   ("    --mangle-variables", "Shorten declared names (aggressive only, unsafe)",
     "--level aggressive --mangle-variables"),
   ("    --remove-console", "Drop console.* calls", "--remove-console"),
   ("    --keep-debugger", "Keep debugger statements", "--keep-debugger"),
   ("    --preserve-linebreaks", "Keep line structure while collapsing spaces",
     "--preserve-linebreaks"),
   ("    --keep-empty-lines", "Do not remove blank lines", "--keep-empty-lines")]

/-- Puts blanks after a text until it has a given length. -/
def padRight (width : Nat) (text : String) : String :=
  text ++ String.ofList (List.replicate (width - text.length) ' ')

/-- Cuts a list into rows of a given length, the last of which may be shorter. -/
def rows {α : Type} (length : Nat) : (fuel : Nat) → List α → List (List α)
  | 0, _ => []
  | _, [] => []
  | fuel + 1, items => items.take length :: rows length fuel (items.drop length)

/-- The reference. -/
def helpText : String :=
  let usage :=
    program ++ " - multi-language code minifier\n\nUSAGE:\n    " ++ program ++
      " --input <PATH> [OPTIONS]\n    " ++ program ++
      " generate <TARGET> --input <PATH> [OPTIONS]\n    " ++ program ++ " detect <FILE>\n    " ++
      program ++ " worker\n\nOPTIONS:\n"
  let flags := flagTable.map fun (flag, description, _) =>
    "    " ++ padRight 28 flag ++ description ++ "\n"
  let examples := flagTable.map fun (_, _, example_) => "    " ++ program ++ " " ++ example_ ++ "\n"
  let languages := (rows 8 Language.all.length (Language.all.map Language.name)).map fun row =>
    "    " ++ ", ".intercalate row ++ "\n"
  usage ++ String.join flags ++ "\nEXAMPLES:\n" ++ String.join examples ++
    "\nSUPPORTED LANGUAGES:\n" ++ String.join languages

end Minifier.Target
