import Minifier.Config.Format
import Minifier.Target.Shell

/-!
A run where nobody watches it: in a workflow, in a container image, and as a configuration file that
reads back as the same run.
-/

namespace Minifier.Target

/-- A workflow that minifies and keeps the results. -/
def workflow (config : RunConfig) : String :=
  Text.ofLines
    ["name: Minify",
     "",
     "on:",
     "  push:",
     "    branches: [main]",
     "  pull_request:",
     "",
     "jobs:",
     "  minify:",
     "    runs-on: ubuntu-latest",
     "    steps:",
     "      - uses: actions/checkout@v4",
     "      - uses: dtolnay/rust-toolchain@stable",
     "      - name: Install codeshrink",
     "        run: cargo install codeshrink",
     "      - name: Minify (" ++ config.options.level.name ++ ")",
     "        run: " ++ command (once config),
     "      - uses: actions/upload-artifact@v4",
     "        with:",
     "          name: minified",
     "          path: \"" ++ config.output.getD "**/*.min.*" ++ "\""]

/-- A recipe for a container image that runs the program with the arguments of a run. -/
def imageRecipe (config : RunConfig) : String :=
  Text.ofLines
    ["FROM rust:1-slim AS build",
     "RUN cargo install codeshrink",
     "",
     "FROM debian:bookworm-slim",
     "COPY --from=build /usr/local/cargo/bin/" ++ program ++ " /usr/local/bin/" ++ program,
     "WORKDIR /workspace",
     "ENTRYPOINT [\"" ++ program ++ "\"]",
     "CMD " ++ (Json.strings (commandArguments (once config))).compact]

def configFile (config : RunConfig) : String := (Layer.ofRun config).toJson.pretty

end Minifier.Target
