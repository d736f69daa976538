import Minifier.Config.Format
import Minifier.Target.Shell

/-!
A run inside the configuration of a bundler or task runner. The command stands there as a string in
single quotes, and the options as an object.
-/

namespace Minifier.Target

/-- The options as an object whose lines after the first are indented. -/
def optionsLiteral (config : RunConfig) (indent : Nat) : String :=
  let pad := List.replicate indent ' '
  match Text.lines config.options.toJson.pretty.toList with
  | [] => ""
  | first :: rest => String.ofList (rest.foldl (fun text line => text ++ '\n' :: (pad ++ line)) first)

/-- A string in single quotes. -/
def singleQuoted (text : String) : String :=
  "'" ++ String.ofList (text.toList.flatMap fun c =>
    if c == '\\' || c == '\'' then ['\\', c] else [c]) ++ "'"

/-- The files to watch: the input itself if its name has a dot, otherwise the files in it. -/
def watchGlob (config : RunConfig) : String :=
  let input := Text.dropTail (· == '/') config.input.toList
  let name := input.reverse.takeWhile (· != '/')
  if name.contains '.' || input = [] then String.ofList input
  else if config.recursive then String.ofList input ++ "/**/*"
  else String.ofList input ++ "/*"

/-- A file of tasks, one to minify and one to watch. -/
def taskFile (config : RunConfig) : String :=
  Text.ofLines
    ["const \x7b watch, series \x7d = require('gulp');",
     "const \x7b exec \x7d = require('child_process');",
     "",
     "// Resolved codeshrink options",
     "const options = " ++ optionsLiteral config 0 ++ ";",
     "",
     "function minify(cb) \x7b",
     "  exec(" ++ singleQuoted (command (once config)) ++ ", (err, stdout, stderr) => \x7b",
     "    if (stdout) process.stdout.write(stdout);",
     "    if (stderr) process.stderr.write(stderr);",
     "    cb(err);",
     "  \x7d);",
     "\x7d",
     "",
     "function watchSources() \x7b",
     "  watch(" ++ singleQuoted (watchGlob config) ++ ", \x7b ignored: '**/*.min.*' \x7d, minify);",
     "\x7d",
     "",
     "exports.minify = minify;",
     "exports.watch = series(minify, watchSources);",
     "exports.default = minify;"]

/-- A plugin that minifies after every build. -/
def pluginFile (config : RunConfig) : String :=
  Text.ofLines
    ["const \x7b execSync \x7d = require('child_process');",
     "",
     "class CodeshrinkPlugin \x7b",
     "  constructor(overrides = \x7b\x7d) \x7b",
     "    this.options = \x7b ..." ++ optionsLiteral config 4 ++ ", ...overrides \x7d;",
     "  \x7d",
     "",
     "  apply(compiler) \x7b",
     "    compiler.hooks.afterEmit.tap('CodeshrinkPlugin', () => \x7b",
     "      execSync(" ++ singleQuoted (command (once config)) ++ ", \x7b stdio: 'inherit' \x7d);",
     "    \x7d);",
     "    compiler.hooks.watchRun.tap('CodeshrinkPlugin', () => \x7b",
     "      console.log('[codeshrink] change detected, re-minifying after emit');",
     "    \x7d);",
     "  \x7d",
     "\x7d",
     "",
     "module.exports = \x7b",
     "  plugins: [new CodeshrinkPlugin()],",
     "  watchOptions: \x7b",
     "    ignored: ['**/node_modules', '**/*.min.*'],",
     "  \x7d,",
     "\x7d;"]

end Minifier.Target
