import UtilityCss.Path.Basic

set_option autoImplicit false

namespace UtilityCss.Source

def skippedDirectories : List String :=
  [".git", ".hg", ".svn", "node_modules", ".next", ".turbo"]

def skippedFiles : List String :=
  [".gitignore", ".DS_Store", "package-lock.json", "pnpm-lock.yaml", "yarn.lock", "bun.lockb",
   "bun.lock", "npm-shrinkwrap.json", "Cargo.lock", "composer.lock", "Gemfile.lock", "poetry.lock",
   "Pipfile.lock"]

def styleExtensions : List String := ["css", "scss", "sass", "less", "styl", "pcss"]

def binaryExtensions : List String :=
  ["png", "jpg", "jpeg", "gif", "webp", "ico", "bmp", "tiff", "avif", "mp4", "mov", "avi", "mkv",
   "webm", "mp3", "wav", "ogg", "flac", "zip", "gz", "tgz", "rar", "7z", "pdf", "woff", "woff2",
   "ttf", "otf", "eot", "wasm", "exe", "so", "dylib"]

def hasExtension (extensions : List String) (path : Path) : Bool :=
  match path.extension? with
  | some extension => extension.toLower ∈ extensions
  | none => false

def isLeftOut (path : Path) : Bool :=
  path.components.any (fun component => component.text ∈ skippedDirectories) ||
    (path.fileName?.getD "") ∈ skippedFiles ||
    hasExtension (styleExtensions ++ binaryExtensions) path

def isBinary (path : Path) : Bool := hasExtension binaryExtensions path

end UtilityCss.Source
