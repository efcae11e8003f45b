import CBuild.Files.Archive
import CBuild.Text.Sed

/-! # Self-extracting packages

`gen_cpk_binary.sh`: a package is the script itself, with the name of the rootfs put into it, and an archive of the
rootfs after it. The characters of the texts are bytes.
-/

namespace CBuild.Model.GenCpkBinary

open CBuild.Files.Archive

/-- What is in a file, or where a symbolic link points. -/
inductive Content where
  | file (bytes : Text)
  | link (target : Text)
  deriving DecidableEq

abbrev Rootfs := Tree Text Content

abbrev Tar := Archiver Text Content Text

/-- A line of the licence. -/
structure Comment where
  line : Text
  begins : "# ".toList <+: line
  plain : '\n' ∉ line

def heading : List String :=
  ["#!/bin/sh",
   "",
   "############################################"]

/-- The script after its licence. -/
def code : List String :=
  ["############################################",
   "",
   "if [ \"$1\" = \"pack\" ]; then",
   "    rm -f $2.cpk $2.tar",
   "    tar -cf $2.tar -C $2 .",
   "    if [ $? -ne 0 ]; then",
   "        echo -e \"\\033[31mERROR: tar $2 failed.\\033[0m\"",
   "        exit 1",
   "    fi",
   "",
   "    sed \"s/^#pkgdir=sed_cmd$/pkgdir=$(basename $2)/g\" $0 | cat - $2.tar > $2.cpk",
   "    chmod +x $2.cpk",
   "    rm -f $2.tar",
   "",
   "    echo -e \"\\033[32mCPK is packed to $2.cpk\\033[0m\"",
   "    exit 0",
   "fi",
   "",
   "pkgdir=`basename $0`",
   "if [ $(echo $pkgdir | grep -c '_') -ne 0 ]; then",
   "    pkgdir=$(echo $pkgdir | cut -d '_' -f 1)",
   "else",
   "    pkgdir=$(echo $pkgdir | cut -d '.' -f 1)",
   "fi",
   "#pkgdir=sed_cmd",
   "",
   "defdir=/home/$USER/.cpk/$pkgdir",
   "insdir=$1",
   "",
   "if [ -z \"$insdir\" ]; then",
   "    read -p \"Please set the installation directory ($defdir): \" insdir",
   "    if [ -z \"$insdir\" ]; then",
   "        insdir=$defdir",
   "    fi",
   "fi",
   "if [ \"$insdir\" = \"def\" ] ||  [ \"$insdir\" = \"default\" ]; then",
   "    insdir=$defdir",
   "fi",
   "",
   "if [ -e $insdir ]; then",
   "    if [ \"$(basename $insdir)\" = \"$pkgdir\" ]; then",
   "        choice=$2",
   "        if [ -z \"$choice\" ]; then",
   "            read -p \"Delete the original app [$insdir] first? (y or n): \" choice",
   "            if [ -z \"$choice\" ]; then",
   "                choice=n",
   "            fi",
   "            echo -e \"\\033[43mYour choice is $choice\\033[0m\"",
   "        fi",
   "        if [ \"$choice\" = \"y\" ] || [ \"$choice\" = \"Y\" ]; then",
   "            rm -rf $insdir/*",
   "        fi",
   "    fi",
   "fi",
   "",
   "if [ ! -e $insdir ]; then",
   "    mkdir -p $insdir",
   "    if [ $? -ne 0 ]; then",
   "        echo -e \"\\033[31mERROR: mkdir $insdir failed.\\033[0m\"",
   "        exit 1",
   "    fi",
   "fi",
   "",
   "sed '1,/^#END$/d' $0 > $insdir/tmp.tar",
   "tar -xf $insdir/tmp.tar -C $insdir",
   "if [ $? -ne 0 ]; then",
   "    rm -f $insdir/tmp.tar",
   "    echo -e \"\\033[31mERROR: untar $0 failed.\\033[0m\"",
   "    exit 1",
   "fi",
   "rm -f $insdir/tmp.tar",
   "",
   "if [ -e $insdir/update.sh ]; then",
   "    sh $insdir/update.sh",
   "    if [ $? -ne 0 ]; then",
   "        echo -e \"\\033[31mERROR: run $insdir/update.sh failed.\\033[0m\"",
   "        exit 1",
   "    fi",
   "fi",
   "",
   "echo -e \"\\033[32mSuccessfully installed to $insdir\\033[0m\"",
   "exit 0"]

def script (licence : List Comment) : List Text :=
  heading.map String.toList ++ licence.map Comment.line ++ code.map String.toList ++ ["#END".toList]

/-- The base name of a rootfs; neither the shell nor `sed` takes one of its characters for something else. -/
structure Name where
  text : Text
  plain : ∀ c ∈ text, c.isAlphanum ∨ c ∈ "_-+.".toList

variable (tar : Tar) (licence : List Comment)

/-- `gen_cpk_binary.sh pack`, for a rootfs that is named without a slash at the end. -/
def pack (name : Name) (rootfs : Rootfs) : Text :=
  Text.substituteLine "#pkgdir=sed_cmd".toList ("pkgdir=".toList ++ name.text) (Text.unlines (script licence)) ++
    tar.create rootfs.members

def tmpTar : List Text := ["tmp.tar".toList]

def install (cpk : Text) (insdir : Listing Text Content) : Option (Listing Text Content) :=
  let archive := Text.deleteThrough "#END".toList cpk
  let insdir := put insdir tmpTar (.leaf (.file archive))
  -- `tar` has opened the archive before anything replaces it.
  ((tar.list archive).bind (extract · insdir)).map (remove · tmpTar)

end CBuild.Model.GenCpkBinary
